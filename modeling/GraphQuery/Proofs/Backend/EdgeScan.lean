import GraphQuery.Backend.Store
import Mathlib.Data.List.Induction
import Mathlib.Order.Compare
/-!
# Reading the edges of a store

A store keeps its edges in the order of their keys, and a lookup reads on from the smallest key that
an edge of its pair can have, up to the first edge of another pair.  The keys of one pair stand
together (`EdgeKey.inPair_of_between`), so this reads all of them (`Store.scan_eq_filter`).
`Store.edges_after` says what a lookup answers after any changes to a store: of every edge of the
pair that was ever added what was last said of it, the newest first.
-/

namespace GraphQuery

namespace EdgeKey

/-! ## The order of keys -/

def pairOrder : EdgeKey → EdgeKey → Ordering :=
  compareLex (compareOn fun k => k.source.toInt) (compareOn EdgeKey.type)

theorem order_eq : order = compareLex pairOrder (compareLex
    (fun a b => compareOn (fun k : EdgeKey => k.time.toInt) b a)
    (compareOn fun k => k.destination.toInt)) := by
  funext a b
  simp only [order, pairOrder, compareLex, compareOn, Ordering.then_assoc]

instance : Std.TransCmp pairOrder := by
  unfold pairOrder
  infer_instance

instance : Std.TransCmp order := by
  rw [order_eq]
  have : Std.TransCmp fun a b => compareOn (fun k : EdgeKey => k.time.toInt) b a :=
    .opposite
  infer_instance

theorem pairOrder_eq_iff {a b : EdgeKey} :
    pairOrder a b = .eq ↔ a.source = b.source ∧ a.type = b.type := by
  rw [pairOrder, compareLex_eq_eq]
  exact and_congr (Std.compare_eq_iff_eq.trans Int64.toInt_inj) Std.compare_eq_iff_eq

instance : Std.LawfulEqCmp order where
  eq_of_compare {a b} h := by
    rw [order_eq, compareLex_eq_eq, compareLex_eq_eq, pairOrder_eq_iff] at h
    obtain ⟨⟨hs, ht⟩, htime, hd⟩ := h
    have htime := Int64.toInt_inj.1 (Std.compare_eq_iff_eq.1 htime)
    have hd := Int64.toInt_inj.1 (Std.compare_eq_iff_eq.1 hd)
    cases a
    cases b
    simp_all

theorem order_self (k : EdgeKey) : k.order k = .eq := Std.ReflCmp.compare_self

def InPair (source : Int64) (type : String) (k : EdgeKey) : Prop :=
  k.source = source ∧ k.type = type

instance (source : Int64) (type : String) : DecidablePred (InPair source type) :=
  fun k => inferInstanceAs (Decidable (k.source = source ∧ k.type = type))

variable {source : Int64} {type : String}

theorem order_inPair {a b : EdgeKey} (ha : a.InPair source type) (hb : b.InPair source type) :
    a.order b = .lt ↔ b.time < a.time ∨ a.time = b.time ∧ a.destination < b.destination := by
  have hp : pairOrder a b = .eq := pairOrder_eq_iff.2 ⟨ha.1.trans hb.1.symm, ha.2.trans hb.2.symm⟩
  rw [order_eq, compareLex, hp, Ordering.eq_then, compareLex, Ordering.then_eq_lt, compareOn,
    compareOn, Int.compare_eq_lt, Std.compare_eq_iff_eq, Int.compare_eq_lt, Int64.lt_iff_toInt_lt,
    Int64.lt_iff_toInt_lt, Int64.toInt_inj, eq_comm]

/-- **No edge of a pair comes before the pair's smallest key**, at whatever time it was made. -/
theorem not_lt_first {k : EdgeKey} (hk : k.InPair source type) :
    k.order (first source type) ≠ .lt := by
  rw [ne_eq, order_inPair hk ⟨rfl, rfl⟩, Int64.lt_iff_toInt_lt, Int64.lt_iff_toInt_lt]
  have htime := k.time.toInt_le
  have hdest := k.destination.le_toInt
  have hmin : (first source type).destination.toInt = -2 ^ 63 := Int64.toInt_minValue
  have hmax : (first source type).time.toInt = Int64.maxValue.toInt := rfl
  omega

theorem isLE_pairOrder {a b : EdgeKey} (h : (a.order b).isLE = true) :
    (pairOrder a b).isLE = true := by
  rw [order_eq, compareLex] at h
  cases hp : pairOrder a b with
  | gt => rw [hp] at h; cases h
  | _ => rfl

/-- **The keys of a pair stand together**: what comes between two of them is one of them. -/
theorem inPair_of_between {a b : EdgeKey} (ha : a.order (first source type) ≠ .lt)
    (hab : a.order b = .lt) (hb : b.InPair source type) : a.InPair source type := by
  have hfirst : (pairOrder (first source type) a).isLE = true :=
    isLE_pairOrder (Std.OrientedCmp.isGE_iff_isLE.1 (Ordering.isGE_iff_ne_lt.2 ha))
  have hlast : pairOrder b (first source type) = .eq := pairOrder_eq_iff.2 hb
  have hle : (pairOrder a (first source type)).isLE = true :=
    Std.TransCmp.isLE_trans (isLE_pairOrder (Ordering.isLE_of_eq_lt hab))
      (Ordering.isLE_of_eq_eq hlast)
  exact pairOrder_eq_iff.1 (Std.OrientedCmp.isLE_antisymm hle hfirst)

/-! ## Edges by ascending key -/

def Ascending (links : List (EdgeKey × String)) : Prop :=
  links.Pairwise fun a b => a.1.order b.1 = .lt

section

variable {key k : EdgeKey} {data d : String} {links : List (EdgeKey × String)}

theorem not_mem_of_lt (h : ∀ l ∈ links, key.order l.1 = .lt) : (key, d) ∉ links := fun hm => by
  have hlt := h (key, d) hm
  rw [order_self] at hlt
  cases hlt

/-- **Putting an edge at its place replaces the one with its key**, and leaves the others. -/
theorem mem_insert_iff : ∀ {links : List (EdgeKey × String)}, Ascending links →
    ((k, d) ∈ insert key data links ↔ if k = key then d = data else (k, d) ∈ links)
  | [], _ => by
    rw [insert, List.mem_singleton, Prod.mk.injEq]
    split <;> simp_all
  | (j, e) :: rest, h => by
    obtain ⟨hj, hrest⟩ := List.pairwise_cons.1 h
    rw [insert]
    cases ho : key.order j with
    | lt =>
      have hnew (d : String) : (key, d) ∉ (j, e) :: rest := not_mem_of_lt
        (List.forall_mem_cons.2 ⟨ho, fun l hl => Std.TransCmp.lt_trans ho (hj l hl)⟩)
      dsimp only
      rw [List.mem_cons, Prod.mk.injEq]
      split
      · rename_i hk
        subst hk
        simp [hnew]
      · rename_i hk
        simp [hk]
    | eq =>
      obtain rfl := Std.LawfulEqCmp.eq_of_compare ho
      have hnew (d : String) : (key, d) ∉ rest := not_mem_of_lt hj
      dsimp only
      rw [List.mem_cons, List.mem_cons, Prod.mk.injEq, Prod.mk.injEq]
      split
      · rename_i hk
        subst hk
        simp [hnew]
      · rename_i hk
        simp [hk]
    | gt =>
      have hne : j ≠ key := fun he => by
        rw [he, order_self] at ho
        cases ho
      dsimp only
      rw [List.mem_cons, List.mem_cons, mem_insert_iff hrest, Prod.mk.injEq]
      split
      · rename_i hk
        subst hk
        simp [Ne.symm hne]
      · rfl

theorem ascending_insert : ∀ {links : List (EdgeKey × String)}, Ascending links →
    Ascending (insert key data links)
  | [], _ => List.pairwise_singleton _ _
  | (j, e) :: rest, h => by
    obtain ⟨hj, hrest⟩ := List.pairwise_cons.1 h
    rw [insert]
    cases ho : key.order j with
    | lt =>
      refine List.pairwise_cons.2 ⟨List.forall_mem_cons.2 ⟨ho, fun l hl => ?_⟩, h⟩
      exact Std.TransCmp.lt_trans ho (hj l hl)
    | eq =>
      obtain rfl := Std.LawfulEqCmp.eq_of_compare ho
      exact List.pairwise_cons.2 ⟨hj, hrest⟩
    | gt =>
      refine List.pairwise_cons.2 ⟨fun l hl => ?_, ascending_insert hrest⟩
      rw [← Prod.eta l, mem_insert_iff hrest] at hl
      split at hl
      · rename_i hk
        rw [hk]
        exact Std.OrientedCmp.gt_iff_lt.1 ho
      · exact hj l hl

end

end EdgeKey

namespace Store

/-! ## Scanning -/

section

variable {source : Int64} {type : String}

def inPair (source : Int64) (type : String) (l : EdgeKey × String) : Bool :=
  l.1.source = source && l.1.type = type

theorem inPair_iff {l : EdgeKey × String} :
    inPair source type l = true ↔ l.1.InPair source type := by
  simp [inPair, EdgeKey.InPair]

theorem takeWhile_inPair : ∀ {links : List (EdgeKey × String)}, EdgeKey.Ascending links →
    (∀ l ∈ links, l.1.order (.first source type) ≠ .lt) →
      links.takeWhile (inPair source type) = links.filter (inPair source type)
  | [], _, _ => rfl
  | l :: rest, h, hfirst => by
    obtain ⟨hl, hrest⟩ := List.pairwise_cons.1 h
    rw [List.takeWhile_cons, List.filter_cons]
    split
    · rw [takeWhile_inPair hrest fun x hx => hfirst x (List.mem_cons_of_mem l hx)]
    · rename_i hout
      refine (List.filter_eq_nil_iff.2 fun x hx hin => hout ?_).symm
      exact inPair_iff.2 (EdgeKey.inPair_of_between (hfirst l List.mem_cons_self) (hl x hx)
        (inPair_iff.1 hin))

/-- **A scan of ascending edges reads those of its pair**, and no others. -/
theorem scan_eq_filter {s : Store} (h : EdgeKey.Ascending s.links) :
    s.scan source type = s.links.filter (inPair source type) := by
  obtain ⟨texts, links⟩ := s
  rw [scan]
  show List.takeWhile (inPair source type) _ = _
  induction links with
  | nil => rfl
  | cons l rest ih =>
    obtain ⟨hl, hrest⟩ := List.pairwise_cons.1 h
    rw [List.dropWhile_cons]
    split
    · rename_i hlt
      have hout : ¬ inPair source type l = true := fun hin =>
        EdgeKey.not_lt_first (inPair_iff.1 hin) (of_decide_eq_true hlt)
      rw [ih hrest, List.filter_cons_of_neg hout]
    · rename_i hge
      have hge : l.1.order (.first source type) ≠ .lt := fun hlt => hge (decide_eq_true hlt)
      refine takeWhile_inPair h (List.forall_mem_cons.2 ⟨hge, fun x hx hx' => hge ?_⟩)
      exact Std.TransCmp.lt_trans (hl x hx) hx'

end

/-! ## Changes -/

inductive Change where
  | object (key : Int64) (item : Item)
  | text (key : Int64) (text : String)
  | edge (key : EdgeKey) (data : String)

def change (s : Store) : Change → Store
  | .object key item => s.insertObject key item
  | .text key text => s.insertText key text
  | .edge key data => s.addEdge key data

/-- What a store holds after some changes, the oldest first. -/
def after (changes : List Change) : Store := changes.foldl change empty

def Change.says? (key : EdgeKey) : Change → Option String
  | .edge k data => if k = key then some data else none
  | _ => none

def lastSaid? (key : EdgeKey) (changes : List Change) : Option String :=
  changes.reverse.findSome? (Change.says? key)

theorem after_concat (changes : List Change) (c : Change) :
    after (changes ++ [c]) = (after changes).change c := by
  rw [after, List.foldl_append]
  rfl

theorem lastSaid?_concat (key : EdgeKey) (changes : List Change) (c : Change) :
    lastSaid? key (changes ++ [c]) = (c.says? key).or (lastSaid? key changes) := by
  rw [lastSaid?, List.reverse_concat, List.findSome?_cons]
  cases c.says? key <;> rfl

structure Records (changes : List Change) (s : Store) : Prop where
  ascending : EdgeKey.Ascending s.links
  mem_iff : ∀ key data, (key, data) ∈ s.links ↔ lastSaid? key changes = some data

theorem Records.change {changes : List Change} {s : Store} (h : Records changes s) :
    ∀ c : Change, Records (changes ++ [c]) (s.change c)
  | .object _ _ | .text _ _ =>
    ⟨h.ascending, fun key data => by rw [lastSaid?_concat]; exact h.mem_iff key data⟩
  | .edge k d => by
    refine ⟨EdgeKey.ascending_insert h.ascending, fun key data => ?_⟩
    rw [lastSaid?_concat, Change.says?]
    refine (EdgeKey.mem_insert_iff h.ascending).trans ?_
    split
    · rename_i hk
      rw [if_pos hk.symm, Option.some_or, Option.some_inj, eq_comm]
    · rename_i hk
      rw [if_neg (Ne.symm hk), Option.none_or, h.mem_iff]

/-- **After any changes a store holds the edges that were added.** -/
theorem records_after (changes : List Change) : Records changes (after changes) := by
  induction changes using List.reverseRecOn with
  | nil => exact ⟨.nil, fun key data => by simp [after, empty, lastSaid?]⟩
  | append_singleton changes c ih =>
    rw [after_concat]
    exact ih.change c

/-! ## Lookups -/

/-- What a lookup is to find of the edges of one type from one source. -/
structure IsLookup (changes : List Change) (source : Int64) (type : String)
    (found : List (EdgeKey × String)) : Prop where
  mem_iff : ∀ key data, (key, data) ∈ found ↔
    key.InPair source type ∧ lastSaid? key changes = some data
  /-- The newest come first, and those of one time by destination; so no edge comes twice. -/
  newestFirst : found.Pairwise fun a b => b.1.time < a.1.time ∨
    a.1.time = b.1.time ∧ a.1.destination < b.1.destination

/-- **A lookup of the edges of a pair succeeds and finds what was added for the pair.** -/
theorem edges_after (changes : List Change) (source : Int64) (type : String) :
    ∃ found, IsLookup changes source type found ∧
      (after changes).edges type (.int source) = .ok (found.map fun l =>
        ⟨[(idField, .int l.1.destination), (timeField, .int l.1.time),
          (dataField, .string l.2)]⟩) := by
  have hr := records_after changes
  have hpair : ∀ l ∈ (after changes).links.filter (inPair source type), l.1.InPair source type :=
    fun l hl => inPair_iff.1 (List.mem_filter.1 hl).2
  refine ⟨(after changes).links.filter (inPair source type), ⟨fun key data => ?_, ?_⟩, ?_⟩
  · rw [List.mem_filter, inPair_iff, hr.mem_iff, and_comm]
  · refine (hr.ascending.sublist List.filter_sublist).imp_of_mem fun ha hb hlt => ?_
    exact (EdgeKey.order_inPair (hpair _ ha) (hpair _ hb)).1 hlt
  · rw [edges, scan_eq_filter hr.ascending]
    rfl

end Store

end GraphQuery
