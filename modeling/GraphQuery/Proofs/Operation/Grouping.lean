import Mathlib.Data.List.Chain
import GraphQuery.Proofs.Operation.Origin
import GraphQuery.Proofs.Operation.Sorting
import GraphQuery.Proofs.Value.Classes
import GraphQuery.Proofs.Value.Order
/-!
# Grouping what was sorted

Grouping puts neighbours with the same key into one group, so items of one key end up in one group
exactly when no item of another key stands between two of them (`pairwise_ne_iff`).  Sorting by the
fields of the key brings items of one key together, except that it takes for the same what ties:
among items that tie the order stays what it was, and an item of another key that stood between two
items of one key still does (`Transform.groupBy_orderBy`).
-/

namespace GraphQuery

/-! ## Runs of neighbours -/

namespace Flow

variable {α : Type} {same : α → α → Bool}

theorem same_of_mem_runs (hr : ∀ a, same a a = true) {f : Flow α} :
    ∀ r ∈ (f.runs same).toList, ∀ a ∈ r.2, same r.1 a = true := by
  refine forall_mem_runs (P := fun first run => ∀ a ∈ run, same first a = true) (fun a b hb => ?_)
    fun first run a h hs b hb => ?_
  · rw [List.mem_singleton.1 hb]
    exact hr a
  · rcases List.mem_append.1 hb with hb | hb
    · exact h b hb
    · rw [List.mem_singleton.1 hb]
      exact hs

/-- **Neighbouring runs do not agree.** -/
theorem isChain_runs (f : Flow α) :
    (f.runs same).toList.IsChain fun r s => same r.1 s.1 = false := by
  -- the first run to come is the open one, if there is one, so it fits what came before
  have go (events : List (Event α)) (run : Option (α × List α)) :
      (⟨runEvents same run events⟩ : Flow (α × List α)).toList.IsChain
          (fun r s => same r.1 s.1 = false) ∧
        ∀ r ∈ run, ∀ s ∈ (⟨runEvents same run events⟩ : Flow (α × List α)).toList.head?,
          s.1 = r.1 := by
    fun_induction runEvents same run events with
    | case1 => exact ⟨.nil, fun _ h => by cases h⟩
    | case2 first run =>
      refine ⟨.singleton _, fun r hr s hs => ?_⟩
      cases hr
      cases hs
      rfl
    | case3 run source rest ih => exact ih
    | case4 a rest ih => exact ⟨ih.1, fun _ h => by cases h⟩
    | case5 first run a rest hs ih =>
      refine ⟨ih.1, fun r hr s hs' => ?_⟩
      cases hr
      exact ih.2 _ rfl s hs'
    | case6 first run a rest hs ih =>
      rw [toList_mk_yield]
      refine ⟨List.isChain_cons.2 ⟨fun s hs' => ?_, ih.1⟩, fun r hr s hs' => ?_⟩
      · rw [ih.2 _ rfl s hs']
        simpa using hs
      · cases hr
        cases hs'
        rfl
  exact (go f.events none).1

end Flow

/-! ## Groups and their keys -/

section

variable {α β : Type} {key : α → β}

/--
**Groups whose neighbours differ have different keys exactly when nothing stands between two
elements of one key.**
-/
theorem pairwise_ne_iff : ∀ {groups : List (α × List α)}, (∀ g ∈ groups, g.1 ∈ g.2) →
    (∀ g ∈ groups, ∀ a ∈ g.2, key g.1 = key a) →
    groups.IsChain (fun g h => key g.1 ≠ key h.1) →
      (groups.Pairwise (fun g h => key g.1 ≠ key h.1) ↔
        ∀ a b c, [a, b, c].Sublist (groups.flatMap Prod.snd) → key a = key c → key a = key b)
  | [], _, _, _ => by simp
  | g :: rest, hm, hk, hc => by
    obtain ⟨hhead, hrest⟩ := List.isChain_cons.1 hc
    have hg := hm g List.mem_cons_self
    have hkg := hk g List.mem_cons_self
    have hmr := fun h hh => hm h (List.mem_cons_of_mem g hh)
    have hkr := fun h hh => hk h (List.mem_cons_of_mem g hh)
    have ih := pairwise_ne_iff hmr hkr hrest
    rw [List.pairwise_cons, List.flatMap_cons, ih]
    constructor
    · rintro ⟨hne, hpat⟩ a b c hs hac
      obtain ⟨l₁, l₂, hl, h₁, h₂⟩ := List.sublist_append_iff.1 hs
      match l₁, hl, h₁ with
      | [], hl, _ =>
        cases hl
        exact hpat a b c h₂ hac
      | [x], hl, h₁ =>
        -- the key of an element of the first group stands for an element of a later one
        cases hl
        obtain ⟨h, hh, hch⟩ := List.mem_flatMap.1 (h₂.subset (by simp : c ∈ [b, c]))
        have hx := hkg a (List.singleton_sublist.1 h₁)
        exact absurd (hx.trans (hac.trans (hkr h hh c hch).symm)) (hne h hh)
      | x :: y :: l, hl, h₁ =>
        simp only [List.cons_append, List.cons.injEq] at hl
        obtain ⟨rfl, rfl, -⟩ := hl
        rw [← hkg a (h₁.subset (by simp)), ← hkg b (h₁.subset (by simp))]
    · intro hpat
      refine ⟨fun h hh he => ?_, fun a b c hs => hpat a b c (hs.trans (List.sublist_append_right _ _))⟩
      cases rest with
      | nil => cases hh
      | cons g' rest =>
        have hne := hhead g' rfl
        rcases List.mem_cons.1 hh with rfl | hh
        · exact hne he
        · -- the group behind the first one stands between the two groups of one key
          have hs : [g.1, g'.1, h.1].Sublist (g.2 ++ (g' :: rest).flatMap Prod.snd) := by
            rw [List.flatMap_cons]
            refine (List.singleton_sublist.2 hg).append ((List.singleton_sublist.2
              (hmr g' List.mem_cons_self)).append (List.singleton_sublist.2 ?_))
            exact List.mem_flatMap.2 ⟨h, hh, hmr h (List.mem_cons_of_mem _ hh)⟩
          exact hne (hpat _ _ _ hs he)

end

/-! ## Items of one key -/

namespace Item

def keyOf (fields : List String) (item : Item) : List (Option Value) :=
  fields.map fun field => (item.get? field).map Value.essence

theorem beq_get?_iff {v w : Option Value} :
    (v == w) = true ↔ w.map Value.essence = v.map Value.essence := by
  cases v with
  | none => cases w <;> simp
  | some v =>
    cases w with
    | none => simp
    | some w =>
      rw [Option.some_beq_some, Option.map_some, Option.map_some, Option.some.injEq]
      exact (Value.same_iff v w).trans eq_comm

theorem agreeOn_iff {fields : List String} {a b : Item} :
    agreeOn fields a b = true ↔ keyOf fields a = keyOf fields b := by
  unfold agreeOn keyOf
  rw [List.all_eq_true, List.map_inj_left]
  exact forall₂_congr fun _ _ => beq_get?_iff

end Item

/-! ## Items that tie -/

namespace SortKey

instance : Std.OrientedCmp Value.order := ⟨Value.order_swap _ _⟩

theorem order_swap (key : SortKey) (a b : Item) : key.order b a = (key.order a b).swap := by
  unfold order
  cases key.direction <;> exact Value.order_swap _ _

instance (keys : List SortKey) : Std.OrientedCmp (orderAll keys) where
  eq_swap := by
    intro a b
    induction keys with
    | nil => rfl
    | cons key rest ih =>
      rw [orderAll, orderAll, order_swap key b a, ih]
      cases key.order b a <;> rfl

theorem orderAll_eq_iff {keys : List SortKey} {a b : Item} :
    orderAll keys a b = .eq ↔ ∀ key ∈ keys, key.order a b = .eq := by
  induction keys with
  | nil => simp [orderAll]
  | cons key rest ih =>
    rw [orderAll, List.forall_mem_cons, ← ih]
    cases key.order a b <;> simp

def fields (keys : List SortKey) : List String := keys.map field

/-- **Items that agree on the fields of some keys tie.** -/
theorem orderAll_of_agreeOn {keys : List SortKey} {a b : Item}
    (h : Item.agreeOn (fields keys) a b = true) : orderAll keys a b = .eq := by
  rw [Item.agreeOn, List.all_eq_true] at h
  refine orderAll_eq_iff.2 fun key hk => ?_
  have hv := Item.beq_get?_iff.1 (h key.field (List.mem_map_of_mem hk))
  have ht : (key.valueOf a).essence = (key.valueOf b).essence := by
    unfold valueOf
    cases ha : a.get? key.field <;> cases hb : b.get? key.field <;> simp_all
  unfold order
  cases key.direction
  · exact Value.order_of_same _ _ ((Value.same_iff _ _).2 ht)
  · exact Value.order_of_same _ _ ((Value.same_iff _ _).2 ht.symm)

/--
Whether no item of another key stands between two items of one key with which it ties.
-/
def Unbroken (keys : List SortKey) (items : List Item) : Prop :=
  ∀ a b c, [a, b, c].Sublist items → Item.agreeOn (fields keys) a c = true →
    orderAll keys a b = .eq → Item.agreeOn (fields keys) a b = true

end SortKey

namespace Transform

open SortKey

def groups (fields : List String) (f : Flow Item) : List (Item × List Item) :=
  (f.runs (Item.agreeOn fields)).toList

theorem toList_groupBy (fields : List String) (f : Flow Item) :
    ((groupBy fields).rewrite f).toList =
      (groups fields f).map fun g => Item.ofGroup fields g.1 g.2 := by
  rw [rewrite, Flow.toList_map]
  rfl

theorem toList_orderBy (keys : List SortKey) (f : Flow Item) :
    ((orderBy keys).rewrite f).toList = stableSort (orderAll keys) f.toList := Flow.toList_defer _ _

theorem flatMap_groups (fields : List String) (f : Flow Item) :
    (groups fields f).flatMap Prod.snd = f.toList := Flow.flatMap_toList_runs _ _

theorem agreeOn_of_mem_groups (fields : List String) (f : Flow Item) :
    ∀ g ∈ groups fields f, ∀ a ∈ g.2, Item.agreeOn fields g.1 a = true :=
  Flow.same_of_mem_runs fun a => Item.agreeOn_iff.2 (Eq.refl (Item.keyOf fields a))

theorem pairwise_groups_iff (fields : List String) (f : Flow Item) :
    (groups fields f).Pairwise (fun g h => Item.agreeOn fields g.1 h.1 = false) ↔
      ∀ a b c, [a, b, c].Sublist f.toList → Item.agreeOn fields a c = true →
        Item.agreeOn fields a b = true := by
  have hne : ∀ a b : Item, Item.agreeOn fields a b = false ↔
      Item.keyOf fields a ≠ Item.keyOf fields b := fun a b => by
    rw [← Bool.not_eq_true, Item.agreeOn_iff]
  have hc : (groups fields f).IsChain fun g h => Item.agreeOn fields g.1 h.1 = false :=
    Flow.isChain_runs f
  have hk := agreeOn_of_mem_groups fields f
  simp only [hne, Item.agreeOn_iff] at hc hk ⊢
  rw [← flatMap_groups fields f]
  exact pairwise_ne_iff Flow.first_mem_runs hk hc

/--
**Grouping by the fields that a flow was sorted by loses no item and yields groups of one key each;
they have different keys exactly when in the flow no item of another key stands between two items of
one key with which it ties.**  Sorting needs the comparison to be transitive on the items.
-/
theorem groupBy_orderBy (keys : List SortKey) (f : Flow Item)
    (h : TransOn (orderAll keys) f.toList) :
    let sorted := (orderBy keys).rewrite f
    let found := groups (fields keys) sorted
    ((groupBy (fields keys)).rewrite sorted).toList =
        found.map (fun g => Item.ofGroup (fields keys) g.1 g.2) ∧
      (∀ g ∈ found, g.1 ∈ g.2 ∧ ∀ a ∈ g.2, Item.agreeOn (fields keys) g.1 a = true) ∧
      (found.flatMap Prod.snd).Perm f.toList ∧
      (found.Pairwise (fun g g' => Item.agreeOn (fields keys) g.1 g'.1 = false) ↔
        Unbroken keys f.toList) := by
  intro sorted found
  have hs : sorted.toList = stableSort (orderAll keys) f.toList := toList_orderBy keys f
  refine ⟨toList_groupBy _ _,
    fun g hg => ⟨Flow.first_mem_runs g hg, agreeOn_of_mem_groups _ _ g hg⟩, ?_, ?_⟩
  · rw [flatMap_groups, hs]
    exact perm_stableSort _ _
  -- the three items that decide tie with the first one in either direction
  have hties : ∀ {a b c : Item}, Item.agreeOn (fields keys) a c = true →
      orderAll keys a b = .eq → ∀ x ∈ [a, b, c], orderAll keys a x = .eq := by
    intro a b c hac hab x hx
    simp only [List.mem_cons, List.not_mem_nil, or_false] at hx
    rcases hx with rfl | rfl | rfl
    · exact Std.ReflCmp.compare_self
    · exact hab
    · exact orderAll_of_agreeOn hac
  rw [pairwise_groups_iff, hs]
  constructor
  · intro hpat a b c hsub hac hab
    have ha : a ∈ f.toList := hsub.subset List.mem_cons_self
    exact hpat a b c ((sublist_stableSort_iff h ha (hties hac hab)).2 hsub) hac
  · intro hu a b c hsub hac
    have ha : a ∈ f.toList := (perm_stableSort _ _).mem_iff.1 (hsub.subset List.mem_cons_self)
    have hab := eq_of_sublist_stableSort h hsub (orderAll_of_agreeOn hac)
    exact hu a b c ((sublist_stableSort_iff h ha (hties hac hab)).1 hsub) hac hab

/-- Two keys, one descending, a field that is missing in one item: two items of one key meet. -/
theorem groupBy_orderBy_scattered :
    let keys : List SortKey := [⟨"a", .descending⟩, ⟨"b", .ascending⟩]
    let x : Item := ⟨[("a", .int 1), ("b", .string "x"), ("n", .int 1)]⟩
    let y : Item := ⟨[("a", .int 2), ("n", .int 2)]⟩
    let z : Item := ⟨[("a", .int 1), ("b", .string "x"), ("n", .int 3)]⟩
    let f : Flow Item := .ofList [x, y, z]
    TransOn (orderAll keys) f.toList ∧
      groups (fields keys) ((orderBy keys).rewrite f) = [(y, [y]), (x, [x, z])] ∧
      Unbroken keys f.toList := by
  intro keys x y z f
  have ht : TransOn (orderAll keys) f.toList := by decide
  have hg : groups (fields keys) ((orderBy keys).rewrite f) = [(y, [y]), (x, [x, z])] := rfl
  refine ⟨ht, hg, (groupBy_orderBy keys f ht).2.2.2.1 ?_⟩
  rw [hg]
  decide

/-- An integer and a float that ties with it: the items of key 1 end up in two groups. -/
theorem groupBy_orderBy_mixed :
    let keys : List SortKey := [⟨"a", .ascending⟩]
    let whole : Item := ⟨[("a", .int 1)]⟩
    let real : Item := ⟨[("a", .float ⟨0x3ff0000000000000⟩)]⟩
    let f : Flow Item := .ofList [whole, real, whole]
    ((groupBy (fields keys)).rewrite ((orderBy keys).rewrite f)).toList =
        [.ofGroup (fields keys) whole [whole], .ofGroup (fields keys) real [real],
          .ofGroup (fields keys) whole [whole]] ∧
      ¬ (groups (fields keys) ((orderBy keys).rewrite f)).Pairwise
        fun g g' => Item.agreeOn (fields keys) g.1 g'.1 = false := by
  intro keys whole real f
  refine ⟨rfl, ?_⟩
  decide

end Transform

end GraphQuery
