import GraphQuery.Proofs.Operation.Intersection
/-!
# Uniting sorted flows

A union hands out the highest head of its flows, and takes away every head that ties with it.  If
the flows come by descending identifier, and identifiers hold neither floats nor records, all
repetitions of an identifier come in rounds that follow one another, and the first of these rounds
finds it at the head of every flow that has it.  `SetAlgebra.union_sorted` says what comes out: for
each identifier in any flow one item, the first one with it in the first flow that has it.

As for intersections, the rounds of `SetAlgebra.UnionRounds` have no bound, and every union is a run
of them (`SetAlgebra.ends_unionRounds`).
-/

namespace GraphQuery

namespace SetAlgebra

/-! ## Heads -/

def ahead : Option Head → List Item
  | none => []
  | some h => h.flow.toList

theorem ahead_head (f : Flow Item) : ahead (head f).2 = f.toList := by
  cases hf : (head f).2 with
  | none =>
    unfold head at hf
    rw [Flow.toList_next, Option.map_eq_none_iff.1 hf]
    rfl
  | some h => exact (toList_of_head hf).symm

theorem map_ahead_allHeads : ∀ fs : List (Flow Item),
    (allHeads fs).2.map ahead = fs.map Flow.toList
  | [] => rfl
  | f :: rest => by
    rw [allHeads, List.map_cons, List.map_cons, ahead_head, map_ahead_allHeads rest]

structure Topmost (hs before : List (Option Head)) (h : Head) (after : List (Option Head)) :
    Prop where
  split : hs = before ++ some h :: after
  above : ∀ g, some g ∈ before → g.key.order h.key = .lt
  notBelow : ∀ g, some g ∈ after → (g.key.order h.key).isLE = true

theorem Topmost.cons_none {hs before after : List (Option Head)} {h : Head}
    (ht : Topmost hs before h after) : Topmost (none :: hs) (none :: before) h after :=
  ⟨congrArg (none :: ·) ht.split, fun g hg => ht.above g (by simpa using hg), ht.notBelow⟩

theorem Topmost.cons_some {hs before after : List (Option Head)} {h x : Head}
    (ht : Topmost hs before h after) (hx : x.key.order h.key = .lt) :
    Topmost (some x :: hs) (some x :: before) h after := by
  refine ⟨congrArg (some x :: ·) ht.split, fun g hg => ?_, ht.notBelow⟩
  rcases List.mem_cons.1 hg with he | hg
  · cases he
    exact hx
  · exact ht.above g hg

theorem highest_eq_none : ∀ {hs : List (Option Head)} {best : Option (Nat × Head)} {index : Nat},
    highest best index hs = none → best = none ∧ ∀ g, some g ∉ hs
  | [], _, _, h => ⟨h, fun _ => List.not_mem_nil⟩
  | none :: rest, best, index, h => by
    rw [highest] at h
    obtain ⟨hb, hr⟩ := highest_eq_none h
    exact ⟨hb, fun g hg => hr g (by simpa using hg)⟩
  | some x :: rest, none, index, h => by
    rw [highest] at h
    cases (highest_eq_none h).1
  | some x :: rest, some b, index, h => by
    rw [highest] at h
    cases (highest_eq_none h).1

/-- What a search for the highest head comes to, which starts with the best one so far. -/
inductive Chosen (best : Option (Nat × Head)) (index : Nat) (hs : List (Option Head)) (i : Nat)
    (h : Head) : Prop where
  | kept (best_eq : best = some (i, h))
      (notAbove : ∀ g, some g ∈ hs → (g.key.order h.key).isLE = true)
  | found (before : List (Option Head)) {after : List (Option Head)} (position : i = index + before.length)
      (topmost : Topmost hs before h after) (beaten : ∀ b ∈ best, b.2.key.order h.key = .lt)

theorem Chosen.cons {best : Option (Nat × Head)} {index i : Nat} {hs : List (Option Head)}
    {x h : Head} (hc : Chosen (some (index, x)) (index + 1) hs i h)
    (hbest : ∀ b ∈ best, b.2.key.isPlain = true ∧ b.2.key.order x.key = .lt)
    (hx : x.key.isPlain = true) (hh : h.key.isPlain = true) :
    Chosen best index (some x :: hs) i h := by
  cases hc with
  | kept he hle =>
    cases he
    exact .found [] rfl ⟨rfl, nofun, hle⟩ fun b hb => (hbest b hb).2
  | @found before after hi ht hlt =>
    have hxh := hlt _ rfl
    refine .found (some x :: before) (by rw [List.length_cons]; omega)
      (ht.cons_some hxh) fun b hb => ?_
    exact Value.order_lt_of_isLE_of_lt (hbest b hb).1 hx hh
      (Ordering.isLE_of_eq_lt (hbest b hb).2) hxh

/-- **The head that is chosen is the first of the highest ones.** -/
theorem highest_eq_some : ∀ {hs : List (Option Head)} {best : Option (Nat × Head)}
    {index i : Nat} {h : Head}, (∀ b ∈ best, b.2.key.isPlain = true) →
      (∀ g, some g ∈ hs → g.key.isPlain = true) → highest best index hs = some (i, h) →
        Chosen best index hs i h
  | [], _, _, _, _, _, _, hh => .kept hh nofun
  | none :: rest, best, index, i, h, hb, hp, hh => by
    cases highest_eq_some hb (fun g hg => hp g (List.mem_cons_of_mem _ hg)) hh with
    | kept he hle => exact .kept he fun g hg => hle g (by simpa using hg)
    | @found before after hi ht hlt =>
      exact .found (none :: before) (by rw [List.length_cons]; omega) ht.cons_none hlt
  | some x :: rest, best, index, i, h, hb, hp, hh => by
    have hx := hp x List.mem_cons_self
    have hrest : ∀ g, some g ∈ rest → g.key.isPlain = true := fun g hg =>
      hp g (List.mem_cons_of_mem _ hg)
    have hplain : h.key.isPlain = true := by
      rcases mem_of_highest hh with he | hm
      · exact hb _ he
      · exact hp h hm
    have hfirst : ∀ b ∈ some (index, x), b.2.key.isPlain = true := fun b he => by
      cases he
      exact hx
    cases best with
    | none => exact (highest_eq_some hfirst hrest hh).cons (fun b he => by cases he) hx hplain
    | some b =>
      obtain ⟨k, b⟩ := b
      have hbp : b.key.isPlain = true := hb (k, b) rfl
      rw [highest] at hh
      split at hh
      · rename_i hlt
        refine (highest_eq_some hfirst hrest hh).cons (fun c he => ?_) hx hplain
        cases he
        exact ⟨hbp, hlt⟩
      · rename_i hge
        have hxb : (x.key.order b.key).isLE = true := by
          rw [Value.order_swap b.key x.key]
          cases ho : b.key.order x.key with
          | lt => exact absurd ho hge
          | _ => rfl
        cases highest_eq_some hb hrest hh with
        | kept he hle =>
          cases he
          refine .kept rfl fun g hg => ?_
          rcases List.mem_cons.1 hg with he | hg
          · cases he
            exact hxb
          · exact hle g hg
        | @found before after hi ht hlt =>
          refine .found (some x :: before) (by rw [List.length_cons]; omega)
            (ht.cons_some ?_) hlt
          exact Value.order_lt_of_isLE_of_lt hx hbp hplain hxb (hlt _ rfl)

/-! ## What a round leaves -/

def dropTie (top : Value) : List Item → List Item
  | [] => []
  | a :: rest => if (key a).order top = .eq then rest else a :: rest

theorem sublist_dropTie (top : Value) : ∀ items : List Item, (dropTie top items).Sublist items
  | [] => .slnil
  | a :: rest => by
    rw [dropTie]
    split
    · exact List.sublist_cons_self a rest
    · exact .refl _

theorem toList_dropIf (top : Value) (f : Flow Item) :
    (dropIf top f).2.toList = dropTie top f.toList := by
  unfold dropIf
  rw [← ahead_head f]
  cases head f with
  | mk pulls h =>
    cases h with
    | none => rfl
    | some h =>
      dsimp only
      show _ = if h.key.order top = .eq then h.rest.toList else h.flow.toList
      split <;> rfl

theorem toList_afterUnion (top : Value) (o : Option Head) :
    (afterUnion top false o).2.toList = dropTie top (ahead o) := by
  cases o with
  | none => rfl
  | some h =>
    show Flow.toList (if h.key.order top = .eq then h.rest else h.flow) =
      if h.key.order top = .eq then h.rest.toList else h.flow.toList
    split <;> rfl

theorem leftover_none (top : Value) : ∀ hs : List (Option Head),
    (leftover top none hs).2.map Flow.toList = (hs.map ahead).map (dropTie top)
  | [] => rfl
  | o :: rest => by
    rw [leftover, List.map_cons, List.map_cons, List.map_cons, ← leftover_none top rest,
      ← toList_afterUnion]
    rfl

def leave (before : List (Option Head)) (h : Head) (after : List (Option Head)) :
    List Nat × List (Flow Item) :=
  leftover h.key (some before.length) (before ++ some h :: after)

/-- **A round takes the chosen head, and then from each list a head that ties with it.** -/
theorem toList_leave (h : Head) (after : List (Option Head)) : ∀ before : List (Option Head),
    (leave before h after).2.map Flow.toList =
      (before.map ahead).map (dropTie h.key) ++
        dropTie h.key h.rest.toList :: (after.map ahead).map (dropTie h.key)
  | [] => by
    rw [leave, List.nil_append, leftover, List.map_cons]
    show Flow.toList (dropIf h.key h.rest).2 :: (leftover h.key none after).2.map Flow.toList = _
    rw [toList_dropIf, leftover_none]
    rfl
  | o :: before => by
    rw [List.map_cons, List.map_cons, List.cons_append, ← toList_leave h after before,
      ← toList_afterUnion]
    rfl

/-! ## Rounds -/

/-- The rounds of a union and what they do, up to the one that finds that every flow has ended. -/
inductive UnionRounds : Option Value → List (Flow Item) → List (Event Item) → Prop where
  | ended {last : Option Value} {fs : List (Flow Item)} (none : ∀ g, some g ∉ (allHeads fs).2) :
      UnionRounds last fs (Flow.pulling (allHeads fs).1)
  | passed {last : Option Value} {fs : List (Flow Item)} {before after : List (Option Head)}
      {h : Head} {events : List (Event Item)} (topmost : Topmost (allHeads fs).2 before h after)
      (repeated : ∃ l ∈ last, l.order h.key = .eq)
      (next : UnionRounds last (leave before h after).2 events) :
      UnionRounds last fs
        (Flow.pulling ((allHeads fs).1 ++ (leave before h after).1) ++ events)
  | handed {last : Option Value} {fs : List (Flow Item)} {before after : List (Option Head)}
      {h : Head} {events : List (Event Item)} (topmost : Topmost (allHeads fs).2 before h after)
      (fresh : ¬ ∃ l ∈ last, l.order h.key = .eq)
      (next : UnionRounds (some h.key) (leave before h after).2 events) :
      UnionRounds last fs
        (Flow.pulling ((allHeads fs).1 ++ (leave before h after).1) ++ .yield h.item :: events)

section

variable {fs : List (Flow Item)} {before after : List (Option Head)} {h : Head}

theorem Topmost.toList_eq (ht : Topmost (allHeads fs).2 before h after) :
    fs.map Flow.toList = before.map ahead ++ h.flow.toList :: after.map ahead := by
  rw [← map_ahead_allHeads, ht.split, List.map_append]
  rfl

theorem sum_dropTie_le (top : Value) : ∀ lists : List (List Item),
    ((lists.map (dropTie top)).map List.length).sum ≤ (lists.map List.length).sum
  | [] => Nat.le_refl _
  | l :: rest => Nat.add_le_add (sublist_dropTie top l).length_le (sum_dropTie_le top rest)

theorem Topmost.size_lt (ht : Topmost (allHeads fs).2 before h after) :
    size (leave before h after).2 < size fs := by
  have hb := sum_dropTie_le h.key (before.map ahead)
  have hr := (sublist_dropTie h.key h.rest.toList).length_le
  have ha := sum_dropTie_le h.key (after.map ahead)
  have hh : h.flow.toList.length = h.rest.toList.length + 1 := rfl
  rw [size_eq, size_eq, toList_leave, ht.toList_eq]
  simp only [List.map_append, List.map_cons, List.sum_append, List.sum_cons]
  omega

theorem Topmost.sublist (ht : Topmost (allHeads fs).2 before h after) :
    ∀ f ∈ (leave before h after).2, ∃ g ∈ fs, f.toList.Sublist g.toList := by
  intro f hf
  have hm : f.toList ∈ (leave before h after).2.map Flow.toList := List.mem_map_of_mem hf
  have hin : ∃ l ∈ fs.map Flow.toList, f.toList.Sublist l := by
    rw [ht.toList_eq]
    rw [toList_leave, List.mem_append, List.mem_cons, List.mem_map, List.mem_map] at hm
    rcases hm with ⟨l, hl, he⟩ | he | ⟨l, hl, he⟩
    · exact ⟨l, List.mem_append_left _ hl, he ▸ sublist_dropTie h.key l⟩
    · exact ⟨h.flow.toList, by simp,
        he ▸ (sublist_dropTie h.key _).trans (List.sublist_cons_self h.item _)⟩
    · exact ⟨l, by simp [hl], he ▸ sublist_dropTie h.key l⟩
  obtain ⟨l, hl, hs⟩ := hin
  obtain ⟨g, hg, rfl⟩ := List.mem_map.1 hl
  exact ⟨g, hg, hs⟩

theorem Topmost.forall_leave (ht : Topmost (allHeads fs).2 before h after) {P : Item → Prop}
    (hall : ∀ f ∈ fs, ∀ a ∈ f.toList, P a) :
    ∀ f ∈ (leave before h after).2, ∀ a ∈ f.toList, P a := by
  intro f hf a ha
  obtain ⟨g, hg, hs⟩ := ht.sublist f hf
  exact hall g hg a (hs.subset ha)

theorem Topmost.item_mem (ht : Topmost (allHeads fs).2 before h after) :
    ∃ f ∈ fs, h.item ∈ f.toList := by
  have hm : h.flow.toList ∈ fs.map Flow.toList := by
    rw [ht.toList_eq]
    simp
  obtain ⟨f, hf, he⟩ := List.mem_map.1 hm
  exact ⟨f, hf, he ▸ List.mem_cons_self⟩

theorem Topmost.descending (ht : Topmost (allHeads fs).2 before h after)
    (hd : ∀ f ∈ fs, Descending f.toList) : ∀ f ∈ (leave before h after).2, Descending f.toList := by
  intro f hf
  obtain ⟨g, hg, hs⟩ := ht.sublist f hf
  exact (hd g hg).sublist hs

theorem isPlain_of_mem_allHeads (hd : ∀ f ∈ fs, Descending f.toList) {g : Head}
    (hg : some g ∈ (allHeads fs).2) : g.key.isPlain = true := by
  have hm : g.flow.toList ∈ fs.map Flow.toList := by
    rw [← map_ahead_allHeads]
    exact List.mem_map_of_mem (f := ahead) hg
  obtain ⟨f, hf, he⟩ := List.mem_map.1 hm
  exact (hd f hf).plain g.item (he ▸ List.mem_cons_self)

/-- **The rounds end**, for each of them takes an item from a flow. -/
theorem ends_unionRounds : ∀ (rounds : Nat) {last : Option Value} {fs : List (Flow Item)},
    (∀ f ∈ fs, Descending f.toList) → size fs < rounds →
      UnionRounds last fs (unionRounds rounds last fs)
  | 0, _, _, _, hs => absurd hs (Nat.not_lt_zero _)
  | rounds + 1, last, fs, hd, hs => by
    rw [unionRounds]
    dsimp only
    split
    · rename_i hh
      exact .ended (highest_eq_none hh).2
    · rename_i i h hh
      have hc := highest_eq_some (fun b hb => by cases hb)
        (fun g hg => isPlain_of_mem_allHeads hd hg) hh
      cases hc with
      | kept he => cases he
      | @found before after hi ht =>
        have hsize := ht.size_lt
        have hleave : leftover h.key (some i) (allHeads fs).2 = leave before h after := by
          rw [leave, ht.split, hi, Nat.zero_add]
        have hany : (last.any fun l => l.order h.key = .eq) = true ↔
            ∃ l ∈ last, l.order h.key = .eq := by cases last <;> simp
        have next (last : Option Value) : UnionRounds last (leave before h after).2
            (unionRounds rounds last (leave before h after).2) :=
          ends_unionRounds rounds (ht.descending hd) (by omega)
        rw [hleave]
        split
        · rename_i hr
          exact .passed ht (hany.1 hr) (next last)
        · rename_i hr
          exact .handed ht (fun he => hr (hany.2 he)) (next _)

end

/-! ## What the rounds hand out -/

/-- The first item with an identifier in the first list that has one. -/
def firstWith (v : Value) (lists : List (List Item)) : Option Item :=
  lists.findSome? fun l => l.find? (key · == v)

section

variable {v top : Value}

theorem find?_dropTie (hv : v ≠ top) (htop : top.isPlain = true) : ∀ {items : List Item},
    (∀ a ∈ items, (key a).isPlain = true) →
      (dropTie top items).find? (key · == v) = items.find? (key · == v)
  | [], _ => rfl
  | a :: rest, hp => by
    have ha := hp a List.mem_cons_self
    rw [dropTie]
    split
    · rename_i htie
      rw [List.find?_cons_of_neg (p := (key · == v))]
      intro he
      rw [← (Value.beq_iff_eq ha).1 he] at hv
      exact hv (Value.eq_of_order ha htop htie)
    · rfl

theorem firstWith_dropTie (hv : v ≠ top) (htop : top.isPlain = true) :
    ∀ {lists : List (List Item)}, (∀ l ∈ lists, ∀ a ∈ l, (key a).isPlain = true) →
      firstWith v (lists.map (dropTie top)) = firstWith v lists
  | [], _ => rfl
  | l :: rest, hp => by
    have ih := firstWith_dropTie hv htop fun l' hl => hp l' (List.mem_cons_of_mem l hl)
    rw [firstWith, firstWith] at ih
    rw [firstWith, firstWith, List.map_cons, List.findSome?_cons, List.findSome?_cons, ih,
      find?_dropTie hv htop (hp l List.mem_cons_self)]

theorem not_beq_of_lt {a b : Value} (h : a.order b = .lt) : ¬ (a == b) = true := fun he => by
  rw [Value.order_of_same a b he] at h
  cases h

theorem firstWith_append (v : Value) (xs ys : List (List Item)) :
    firstWith v (xs ++ ys) = (firstWith v xs).or (firstWith v ys) := List.findSome?_append

theorem firstWith_cons (v : Value) (l : List Item) (rest : List (List Item)) :
    firstWith v (l :: rest) = (l.find? (key · == v)).or (firstWith v rest) := by
  rw [firstWith, List.findSome?_cons, firstWith]
  cases l.find? (key · == v) <;> rfl

theorem firstWith_eq_none {lists : List (List Item)} :
    firstWith v lists = none ↔ ∀ l ∈ lists, ∀ a ∈ l, ¬ (key a == v) = true := by
  rw [firstWith, List.findSome?_eq_none_iff]
  exact forall₂_congr fun l _ => List.find?_eq_none

end

section

variable {fs : List (Flow Item)} {before after : List (Option Head)} {h : Head}
  (ht : Topmost (allHeads fs).2 before h after) (hd : ∀ f ∈ fs, Descending f.toList)

include ht hd

theorem Topmost.isPlain : h.key.isPlain = true :=
  isPlain_of_mem_allHeads hd (by rw [ht.split]; simp)

theorem Topmost.descendingLists : (∀ o ∈ before, Descending (ahead o)) ∧
    Descending h.flow.toList ∧ ∀ o ∈ after, Descending (ahead o) := by
  have hall : ∀ l ∈ fs.map Flow.toList, Descending l := List.forall_mem_map.2 hd
  rw [ht.toList_eq] at hall
  obtain ⟨hb, hrest⟩ := List.forall_mem_append.1 hall
  obtain ⟨hh, ha⟩ := List.forall_mem_cons.1 hrest
  exact ⟨List.forall_mem_map.1 hb, hh, List.forall_mem_map.1 ha⟩

theorem Topmost.lt_key : ∀ o ∈ before, ∀ a ∈ ahead o, (key a).order h.key = .lt := by
  intro o ho a ha
  have hdo := (ht.descendingLists hd).1 o ho
  cases o with
  | none => cases ha
  | some g =>
    have hg : g.key.isPlain = true := hdo.plain g.item List.mem_cons_self
    exact Value.order_lt_of_isLE_of_lt (hdo.plain a ha) hg (ht.isPlain hd) (hdo.notAbove a ha)
      (ht.above g ho)

theorem Topmost.le_key : ∀ f ∈ fs, ∀ a ∈ f.toList, ((key a).order h.key).isLE = true := by
  obtain ⟨hb, hh, hafter⟩ := ht.descendingLists hd
  suffices hl : ∀ l ∈ fs.map Flow.toList, ∀ a ∈ l, ((key a).order h.key).isLE = true from
    List.forall_mem_map.1 hl
  rw [ht.toList_eq]
  refine List.forall_mem_append.2 ⟨List.forall_mem_map.2 fun o ho a ha => ?_,
    List.forall_mem_cons.2 ⟨hh.notAbove, List.forall_mem_map.2 fun o ho a ha => ?_⟩⟩
  · exact Ordering.isLE_of_eq_lt (ht.lt_key hd o ho a ha)
  · have hdo := hafter o ho
    cases o with
    | none => cases ha
    | some g =>
      have hg : g.key.isPlain = true := hdo.plain g.item List.mem_cons_self
      exact Value.order_trans (hdo.plain a ha) hg (ht.isPlain hd) (hdo.notAbove a ha)
        (ht.notBelow g ho)

/-- **The chosen head is the first item with its identifier.** -/
theorem Topmost.firstWith_key : firstWith h.key (fs.map Flow.toList) = some h.item := by
  have hself : (key h.item == h.key) = true := Value.same_self h.key
  have hnone : firstWith h.key (before.map ahead) = none :=
    firstWith_eq_none.2 (List.forall_mem_map.2 fun o ho a ha =>
      not_beq_of_lt (ht.lt_key hd o ho a ha))
  rw [ht.toList_eq, firstWith_append, hnone, Option.none_or, firstWith_cons,
    show h.flow.toList = h.item :: h.rest.toList from rfl,
    List.find?_cons_of_pos (p := (key · == h.key)) hself]
  rfl

/-- **A round takes no item with another identifier.** -/
theorem Topmost.firstWith_leave {v : Value} (hv : v ≠ h.key) :
    firstWith v ((leave before h after).2.map Flow.toList) = firstWith v (fs.map Flow.toList) := by
  have hp : ∀ l ∈ fs.map Flow.toList, ∀ a ∈ l, (key a).isPlain = true :=
    List.forall_mem_map.2 fun f hf => (hd f hf).plain
  have htop := ht.isPlain hd
  rw [ht.toList_eq] at hp ⊢
  obtain ⟨hb, hp⟩ := List.forall_mem_append.1 hp
  obtain ⟨hh, ha⟩ := List.forall_mem_cons.1 hp
  have hrest : ∀ a ∈ h.rest.toList, (key a).isPlain = true := fun a hm =>
    hh a (List.mem_cons_of_mem _ hm)
  have hitem : ¬ (h.key == v) = true := fun he => hv ((Value.beq_iff_eq htop).1 he).symm
  rw [toList_leave, firstWith_append, firstWith_append, firstWith_cons, firstWith_cons,
    firstWith_dropTie hv htop hb, firstWith_dropTie hv htop ha, find?_dropTie hv htop hrest,
    show h.flow.toList = h.item :: h.rest.toList from rfl,
    List.find?_cons_of_neg (p := (key · == v)) hitem]

end

structure Continues (last : Option Value) (lists : List (List Item)) (out : List Item) : Prop where
  plain : ∀ a ∈ out, (key a).isPlain = true
  below : ∀ l ∈ last, ∀ a ∈ out, (key a).order l = .lt
  strict : out.Pairwise fun a b => (key b).order (key a) = .lt
  taken : ∀ v, last ≠ some v → out.filter (key · == v) = (firstWith v lists).toList

section

variable {last : Option Value} {fs : List (Flow Item)} {events : List (Event Item)}

/-- **What the rounds hand out is what is left to be handed out when they start.** -/
theorem UnionRounds.continues (hr : UnionRounds last fs events)
    (hd : ∀ f ∈ fs, Descending f.toList)
    (hlast : ∀ l ∈ last, l.isPlain = true ∧
      ∀ f ∈ fs, ∀ a ∈ f.toList, ((key a).order l).isLE = true) :
    Continues last (fs.map Flow.toList) (⟨events⟩ : Flow Item).toList := by
  induction hr with
  | @ended last fs hnone =>
    have hempty : ∀ v, firstWith v (fs.map Flow.toList) = none := fun v => by
      rw [← map_ahead_allHeads, firstWith_eq_none]
      refine List.forall_mem_map.2 fun o ho a ha => ?_
      cases o with
      | none => cases ha
      | some g => exact absurd ho (hnone g)
    rw [← List.append_nil (Flow.pulling _), Flow.toList_pulling]
    exact ⟨nofun, nofun, .nil, fun v _ => by rw [hempty v]; rfl⟩
  | @passed last fs before after h events ht hrep next ih =>
    obtain ⟨l, hl, htie⟩ := hrep
    obtain ⟨hp, hle⟩ := hlast l hl
    obtain rfl := Value.eq_of_order hp (ht.isPlain hd) htie
    have hc := ih (ht.descending hd) fun l' hl' => by
      cases hl.symm.trans hl'
      exact ⟨hp, ht.forall_leave hle⟩
    rw [Flow.toList_pulling]
    refine ⟨hc.plain, hc.below, hc.strict, fun v hv => ?_⟩
    rw [hc.taken v hv, ht.firstWith_leave hd]
    rintro rfl
    exact hv hl
  | @handed last fs before after h events ht hfresh next ih =>
    have hp := ht.isPlain hd
    have hle := ht.le_key hd
    have hc := ih (ht.descending hd) fun l' hl' => by
      cases hl'
      exact ⟨hp, ht.forall_leave hle⟩
    have hbelow := hc.below h.key rfl
    rw [Flow.toList_pulling, Flow.toList_mk_yield]
    refine ⟨List.forall_mem_cons.2 ⟨hp, hc.plain⟩, fun l hl => ?_,
      List.pairwise_cons.2 ⟨hbelow, hc.strict⟩, fun v hv => ?_⟩
    · -- the new identifier lies below the last one, and what follows lies below the new one
      obtain ⟨hlp, hall⟩ := hlast l hl
      have hhl : h.key.order l = .lt := by
        obtain ⟨f, hf, hi⟩ := ht.item_mem
        have hle := hall f hf h.item hi
        cases ho : h.key.order l with
        | lt => rfl
        | eq => exact absurd ⟨l, hl, by rw [Value.order_swap h.key l, ho]; rfl⟩ hfresh
        | gt => rw [show (key h.item).order l = .gt from ho] at hle; cases hle
      refine List.forall_mem_cons.2 ⟨hhl, fun a ha => ?_⟩
      exact Value.order_lt_of_isLE_of_lt (hc.plain a ha) hp hlp
        (Ordering.isLE_of_eq_lt (hbelow a ha)) hhl
    · rw [List.filter_cons]
      split
      · rename_i he
        obtain rfl := (Value.beq_iff_eq hp).1 he
        have hnone : (⟨events⟩ : Flow Item).toList.filter (key · == h.key) = [] :=
          List.filter_eq_nil_iff.2 fun a ha => not_beq_of_lt (hbelow a ha)
        rw [ht.firstWith_key hd, hnone]
        rfl
      · rename_i hne
        have hv' : v ≠ h.key := by
          rintro rfl
          exact hne (Value.same_self h.key)
        rw [hc.taken v fun he => hv' (Option.some.inj he).symm, ht.firstWith_leave hd hv']

end

/-! ## The union -/

structure IsUnion (lists : List (List Item)) (out : List Item) : Prop where
  strict : out.Pairwise fun a b => (key b).order (key a) = .lt
  /-- What comes out with an identifier is the first list's first item with it, if there is one. -/
  taken : ∀ v, out.filter (key · == v) = (firstWith v lists).toList

/-- **Uniting sorted flows ends, and comes to one item for each identifier.** -/
theorem union_sorted {fs : List (Flow Item)} (hd : ∀ f ∈ fs, Descending f.toList) :
    UnionRounds none fs (union fs).events ∧ IsUnion (fs.map Flow.toList) (union fs).toList := by
  have hr : UnionRounds none fs (union fs).events :=
    ends_unionRounds _ hd (Nat.lt_succ_self _)
  have hc := hr.continues hd nofun
  exact ⟨hr, hc.strict, fun v => hc.taken v nofun⟩

/-- Repeated identifiers, one of them a list, in three flows, and items without one. -/
theorem union_sorted_repeated :
    let item (id : Value) (n : Int64) : Item := ⟨[(idField, id), ("n", .int n)]⟩
    let f : Flow Item := .ofList [item (.int 7) 1, item (.int 3) 2, item (.int 3) 3, .empty]
    let g : Flow Item := .ofList [item (.list [.int 2]) 4, item (.list [.int 2]) 5,
      item (.int 3) 6, item .null 7]
    let k : Flow Item := .ofList [item (.list [.int 2]) 8, item (.int 7) 9, item (.int 7) 10]
    (∀ x ∈ [f, g, k], Descending x.toList) ∧
      (union [f, g, k]).toList.filter (key · == .list [.int 2]) = [item (.list [.int 2]) 4] ∧
        (union [f, g, k]).toList.filter (key · == .int 3) = [item (.int 3) 2] ∧
          (union [f, g, k]).toList.filter (key · == .null) = [.empty] := by
  intro item f g k
  have hd : ∀ x ∈ [f, g, k], Descending x.toList := by
    refine List.forall_mem_cons.2 ⟨?_, List.forall_mem_cons.2 ⟨?_, List.forall_mem_singleton.2 ?_⟩⟩
    · exact ⟨by decide, by decide⟩
    · exact ⟨by decide, by decide⟩
    · exact ⟨by decide, by decide⟩
  obtain ⟨-, h⟩ := union_sorted hd
  exact ⟨hd, h.taken (.list [.int 2]), h.taken (.int 3), h.taken .null⟩

end SetAlgebra

end GraphQuery
