import GraphQuery.Proofs.Execution.Replanting
import GraphQuery.Proofs.Tree.Order
/-!
# Points after leaves were removed

Leaves without a result are removed from the last one to the first, so that no removal moves a leaf
that is still to be removed (`Removable`).  The points that are kept lie apart as before
(`pairwise_apart_prune`), lead to items if they did (`resolves_prune`), and what stands below an
item that is kept stands below it afterwards (`prune_below`).
-/

namespace GraphQuery

def Tree.Resolves (t : Tree) (points : List Path) : Prop :=
  ∀ p ∈ points, (t.itemAt? p).isSome = true

theorem Tree.resolves_nil (t : Tree) : t.Resolves [] := fun _ h => absurd h List.not_mem_nil

theorem Path.shift?_append_of_apart {r l : Path} (h : r.Apart l) (rest : Path) :
    ∃ l', shift? r l = some l' ∧ shift? r (l ++ rest) = some (l' ++ rest) := by
  induction r generalizing l with
  | nil => exact absurd h (not_apart_nil l)
  | cons g r ih =>
    cases l with
    | nil => exact absurd h.symm (not_apart_nil _)
    | cons s l =>
      by_cases hr : r = []
      · subst hr
        have hne : s ≠ g := by
          rintro rfl
          exact not_apart_nil l (apart_cons_self.1 h)
        rw [List.cons_append, shift?_singleton, shift?_singleton, if_neg hne, if_neg hne]
        exact ⟨_, rfl, rfl⟩
      · rw [List.cons_append, shift?_cons_cons g s hr, shift?_cons_cons g s hr]
        split
        · rename_i hgs
          subst hgs
          obtain ⟨l', hl, ha⟩ := ih (apart_cons_self.1 h)
          rw [hl, ha]
          exact ⟨_, rfl, rfl⟩
        · exact ⟨_, rfl, rfl⟩

namespace Replant

variable {origins : List Leaf} {results : List Item}

/-! ## Paths that can be removed one after another -/

structure Removable (removed : List Path) (t : Tree) : Prop where
  resolves : t.Resolves removed
  apart : removed.Pairwise Path.Apart
  order : removed.Pairwise fun a b => Path.shift? a b = some b

theorem Removable.tail {r : Path} {removed : List Path} {t : Tree}
    (h : Removable (r :: removed) t) : Removable removed (t.removeAt r).tree := by
  obtain ⟨hr, hrest⟩ := List.forall_mem_cons.1 h.resolves
  obtain ⟨gone, hg⟩ := Option.isSome_iff_exists.1 hr
  refine ⟨fun p hp => ?_, (List.pairwise_cons.1 h.apart).2, (List.pairwise_cons.1 h.order).2⟩
  exact Tree.isSome_itemAt?_removeAt (Tree.item_removeAt hg) (hrest p hp)
    ((List.pairwise_cons.1 h.order).1 p hp)

/-- **Points that lie apart still do after removals.** -/
theorem pairwise_apart_prune : ∀ {removed points : List Path} {t : Tree},
    points.Pairwise Path.Apart → (prune removed points t).1.Pairwise Path.Apart
  | [], _, _, h => h
  | p :: rest, points, t, h => by
    rw [prune]
    refine pairwise_apart_prune (List.pairwise_filterMap.2 (h.imp ?_))
    intro a b hab a' ha b' hb
    exact Path.apart_of_shift? hab ha hb

/-- **Points that lead to items still do after removals.** -/
theorem resolves_prune : ∀ {removed points : List Path} {t : Tree}, Removable removed t →
    t.Resolves points → (prune removed points t).2.Resolves (prune removed points t).1
  | [], _, _, _, h => h
  | p :: rest, points, t, hr, h => by
    rw [prune]
    obtain ⟨gone, hg⟩ := Option.isSome_iff_exists.1 (hr.resolves p List.mem_cons_self)
    refine resolves_prune hr.tail fun q hq => ?_
    obtain ⟨q₀, hq₀, hs⟩ := List.mem_filterMap.1 hq
    exact Tree.isSome_itemAt?_removeAt (Tree.item_removeAt hg) (h q₀ hq₀) hs

/-- **An item that lies apart from what is removed is kept, with the points below it.** -/
theorem prune_below {l below : Path} {item : Item} : ∀ {removed points : List Path} {t : Tree},
    Removable removed t → (∀ r ∈ removed, r.Apart l) → t.itemAt? l = some item →
      l ++ below ∈ points → ∃ l', l' ++ below ∈ (prune removed points t).1 ∧
        (prune removed points t).2.itemAt? l' = some item
  | [], _, _, _, _, hl, hp => ⟨l, hp, hl⟩
  | r :: rest, points, t, hr, ha, hl, hp => by
    rw [prune]
    obtain ⟨gone, hg⟩ := Option.isSome_iff_exists.1 (hr.resolves r List.mem_cons_self)
    have har := ha r List.mem_cons_self
    obtain ⟨l', hl', hb⟩ := Path.shift?_append_of_apart har below
    -- the removals to come are not moved, so they lie apart from where the item has moved to
    refine prune_below hr.tail (fun r' hr' => ?_)
      (Tree.itemAt?_removeAt (Tree.item_removeAt hg) hl hl' har.2)
      (List.mem_filterMap.2 ⟨_, hp, hb⟩)
    exact Path.apart_of_shift? (ha r' (List.mem_cons_of_mem r hr'))
      ((List.pairwise_cons.1 hr.order).1 r' hr') hl'

/-! ## The leaves without a result -/

theorem sublist_unused {assignment : List (Option Nat)} : ∀ {index : Nat} {origins : List Leaf},
    (unused assignment index origins).Sublist (origins.map Leaf.path)
  | _, [] => .slnil
  | index, leaf :: rest => by
    rw [unused, List.map_cons]
    split
    · exact sublist_unused.cons _
    · exact sublist_unused.cons_cons _

theorem pairwise_removals (h : origins.Pairwise Leaf.Apart) :
    (removals origins results).Pairwise fun a b =>
      a.Apart b ∧ (Path.order b a).isLE = true := by
  have hl : (origins.map Leaf.path).Pairwise Path.Apart := List.pairwise_map.2 h
  have ha : (unused (assign origins [] results) 0 origins).Pairwise Path.Apart :=
    hl.sublist sublist_unused
  refine List.Pairwise.and ?_ ?_
  · exact ha.perm (perm_stableSort _ _).symm Path.Apart.symm
  · exact pairwise_stableSort (fun a b => Path.order b a) _

theorem apart_removals (h : origins.Pairwise Leaf.Apart) {r : Path}
    (hr : r ∈ removals origins results) : ∀ a ∈ placements origins results, a.1.Apart r := by
  intro a ha
  obtain ⟨s, o, leaf, hs, -, hl, hp⟩ := mem_placements.1 ha
  obtain ⟨k, leaf', hk, hn, rfl⟩ := mem_removals.1 hr
  rw [← hp]
  refine apart_of_getElem? h hl hk ?_
  rintro rfl
  exact hn (List.mem_of_getElem? hs)

/-- **The leaves without a result can be removed from the tree with the results in it.** -/
theorem removable_removals {into : Placed} (h : origins.Pairwise Leaf.Apart)
    (hi : ∀ leaf ∈ origins, into.tree.itemAt? leaf.path = some leaf.item) :
    Removable (removals origins results) (planted origins results into) := by
  refine ⟨fun r hr => ?_, (pairwise_removals h).imp And.left,
    (pairwise_removals h).imp fun h => Path.shift?_of_order h.1 h.2⟩
  rw [planted, Tree.itemAt?_putAll_apart (apart_removals h hr)]
  obtain ⟨k, leaf, hk, -, rfl⟩ := mem_removals.1 hr
  rw [hi leaf (List.mem_of_getElem? hk)]
  rfl

end Replant

end GraphQuery
