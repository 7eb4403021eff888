import GraphQuery.Proofs.Execution.Entering
import GraphQuery.Proofs.Execution.Pruning
/-!
# The points of a cursor after replanting

What becomes of the points of a cursor when the outcome of a subquery is put back.  Points that lay
apart still do (`Replant.pointsApart_place`).  The points that the subquery brings along lead to
items (`Replant.resolvedBy_place_some`).  Those of the outer cursor lead to items exactly when every
result that took the place of a leaf holds an item wherever a point leads below that place
(`Replant.Shelters`, `Replant.resolvedBy_place_none`).
-/

namespace GraphQuery

def PointsApart (c : Option Cursor) : Prop := (pointsOf c).Pairwise Path.Apart

theorem pointsApart_none : PointsApart none := .nil

def Tree.ResolvedBy (t : Tree) (c : Option Cursor) : Prop := t.Resolves (pointsOf c)

theorem Tree.resolvedBy_none (t : Tree) : t.ResolvedBy none := t.resolves_nil

theorem Tree.ResolvedBy.entered {t : Tree} {c : Option Cursor} (h : t.ResolvedBy c) :
    t.EnteredBy c := by
  intro p hp
  obtain ⟨item, hi⟩ := Option.isSome_iff_exists.1 (h p hp)
  exact Tree.enters_of_itemAt? hi

namespace Replant

variable {origins : List Leaf} {results : List Item} {sub : Option Cursor} {into out : Placed}

structure Rooted (origins : List Leaf) (t : Tree) : Prop where
  found : ∀ leaf ∈ origins, t.itemAt? leaf.path = some leaf.item
  apart : origins.Pairwise Leaf.Apart

/-- Whether every result holds an item wherever a point leads below the place it took. -/
def Shelters (origins : List Leaf) (results : List Item) (points : List Path) : Prop :=
  ∀ place result rest, (place, result) ∈ placements origins results → place ++ rest ∈ points →
    (result.within? rest).isSome = true

theorem shelters_of_homeless (h : homeless origins results = true) (points : List Path) :
    Shelters origins results points := by
  intro place result rest hp _
  obtain ⟨s, o, leaf, hs, -⟩ := mem_placements.1 hp
  simp only [homeless, Bool.and_eq_true, List.all_eq_true] at h
  have hn := h.2 _ (List.mem_of_getElem? hs)
  cases hn

/-! ## Overwriting -/

theorem Rooted.itemAt?_planted (hr : Rooted origins into.tree) {place : Path} {result : Item}
    (h : (place, result) ∈ placements origins results) :
    (planted origins results into).itemAt? place = some result := by
  obtain ⟨s, o, leaf, -, -, ho, rfl⟩ := mem_placements.1 h
  exact Tree.itemAt?_putAll_of_mem (pairwise_apart_placements hr.apart) h
    (hr.found leaf (List.mem_of_getElem? ho))

/-- **Points lead to items after overwriting exactly if the results shelter them.** -/
theorem Rooted.resolves_planted (hr : Rooted origins into.tree) {points : List Path}
    (hp : into.tree.Resolves points) :
    (planted origins results into).Resolves points ↔ Shelters origins results points := by
  constructor
  · intro h place result rest hm hq
    rw [← Tree.itemAt?_append (hr.itemAt?_planted hm)]
    exact h _ hq
  · intro h q hq
    -- a point below a place sees the result there, every other point what it saw before
    by_cases hb : ∃ a ∈ placements origins results, a.1 <+: q
    · obtain ⟨⟨place, result⟩, ha, rest, rfl⟩ := hb
      rw [Tree.itemAt?_append (hr.itemAt?_planted ha)]
      exact h place result rest ha hq
    · refine Tree.isSome_itemAt?_putAll (fun a ha => ?_) (hp q hq)
      rcases Path.prefix_or_apart a.1 q with h | h | h
      · exact absurd ⟨a, ha, h⟩ hb
      · exact .inr h
      · exact .inl h

/-! ## The outer cursor -/

/-- **Outer points lead to items after replanting exactly if the results shelter them.** -/
theorem Rooted.resolvedBy_replanted (hr : Rooted origins into.tree)
    (hi : into.tree.ResolvedBy into.cursor) (h : Replanted origins results none into out) :
    out.tree.ResolvedBy out.cursor ↔ Shelters origins results (pointsOf into.cursor) := by
  have hrem : Removable (removals origins results) (planted origins results into) :=
    removable_removals hr.apart hr.found
  rw [Tree.ResolvedBy, h.tree, h.points]
  constructor
  · intro hq place result rest hm hp
    obtain ⟨l, hl, hitem⟩ := prune_below hrem
      (fun r hr' => (apart_removals hr.apart hr' _ hm).symm) (hr.itemAt?_planted hm) hp
    rw [← Tree.itemAt?_append hitem]
    exact hq _ hl
  · intro hs
    exact resolves_prune hrem ((hr.resolves_planted hi).2 hs)

theorem Rooted.resolvedBy_replantOrReplace (hr : Rooted origins into.tree)
    (hi : into.tree.ResolvedBy into.cursor) :
    (replantOrReplace origins results none into).tree.ResolvedBy
        (replantOrReplace origins results none into).cursor ↔
      Shelters origins results (pointsOf into.cursor) := by
  cases h : homeless origins results with
  | true =>
    rw [replantOrReplace_of_homeless h]
    exact ⟨fun _ => shelters_of_homeless h _, fun _ => Tree.resolvedBy_none _⟩
  | false => exact hr.resolvedBy_replanted hi (replanted_of_settled _ _ h)

/-! ## The cursor of the subquery -/

theorem exists_position (origins : List Leaf) {u : Tree} {s : Seq Item} {p : Path}
    (hu : u.single? = some s) (hp : Tree.Enters p u) :
    ∃ j rest, unlift u.single?.isSome p = .item j :: rest ∧
      (∀ assignment, outward origins assignment p = outward origins assignment (.item j :: rest)) ∧
      u.itemAt? p = s.toList[j]?.bind (Item.within? rest) := by
  rw [hu]
  rcases Tree.single?_eq_some.1 hu with rfl | rfl
  · obtain ⟨j, rest, rfl⟩ := Tree.eq_of_enters_seq hp
    exact ⟨j, rest, rfl, fun _ => rfl, rfl⟩
  · obtain ⟨j, rest, rfl⟩ := Tree.eq_of_enters_anon hp
    exact ⟨j, rest, rfl, fun _ => rfl, rfl⟩

theorem apart_outward {u : Tree} {s : Seq Item} (hu : u.single? = some s)
    (h : origins.Pairwise Leaf.Apart) {p q p' q' : Path} (hp : Tree.Enters p u)
    (hq : Tree.Enters q u) (ha : p.Apart q)
    (hp' : outward origins (assign origins [] results) p = some p')
    (hq' : outward origins (assign origins [] results) q = some q') : p'.Apart q' := by
  obtain ⟨j, rest, hup, hop, -⟩ := exists_position origins hu hp
  obtain ⟨k, rest', huq, hoq, -⟩ := exists_position origins hu hq
  have ha := apart_unlift hp hq ha
  rw [hup, huq] at ha
  rw [hop] at hp'
  rw [hoq] at hq'
  obtain ⟨o, leaf, ho, hl, rfl⟩ := outward_item_eq_some.1 hp'
  obtain ⟨o', leaf', ho', hl', rfl⟩ := outward_item_eq_some.1 hq'
  by_cases he : o = o'
  · subst he
    have hjk := assign_injective ho ho'
    subst hjk
    rw [hl] at hl'
    cases hl'
    exact Path.apart_append.2 (Path.apart_cons_self.1 ha)
  · exact (apart_of_getElem? h hl hl' he).append rest rest'

theorem Rooted.itemAt?_outward (hr : Rooted origins into.tree) {u : Tree} {s : Seq Item}
    (hu : u.single? = some s) {p p' : Path} (hp : Tree.Enters p u)
    (hp' : outward origins (assign origins [] s.toList) p = some p') :
    (planted origins s.toList into).itemAt? p' = u.itemAt? p := by
  obtain ⟨j, rest, -, ho, hi⟩ := exists_position origins hu hp
  rw [ho] at hp'
  obtain ⟨o, leaf, ha, hl, rfl⟩ := outward_item_eq_some.1 hp'
  obtain ⟨-, leaf', result, -, hj, -⟩ := getElem?_assign ha
  rw [hi, hj, Tree.itemAt?_append
    (hr.itemAt?_planted (mem_placements.2 ⟨j, o, leaf, ha, hj, hl, rfl⟩))]
  rfl

/-- **The points that a subquery brings along lead to items after replanting.** -/
theorem Rooted.resolvedBy_replanted_sub (hr : Rooted origins into.tree) {u : Tree} {s : Seq Item}
    (hu : u.single? = some s) {c : Cursor} (hc : u.ResolvedBy (some c))
    (h : Replanted origins s.toList (some c) into out) : out.tree.ResolvedBy out.cursor := by
  rw [Tree.ResolvedBy, h.tree, h.points]
  refine resolves_prune (removable_removals hr.apart hr.found) fun p' hp' => ?_
  obtain ⟨p, hp, hp'⟩ := List.mem_filterMap.1 hp'
  rw [hr.itemAt?_outward hu (hc.entered p hp) hp']
  exact hc p hp

/-- **Points lie apart after replanting.** -/
theorem pairwise_apart_replanted (h : origins.Pairwise Leaf.Apart) {u : Tree} {s : Seq Item}
    (hu : u.single? = some s) (he : u.EnteredBy sub) (hs : PointsApart sub)
    (hi : PointsApart into.cursor) (hout : Replanted origins s.toList sub into out) :
    PointsApart out.cursor := by
  rw [PointsApart, hout.points]
  refine pairwise_apart_prune ?_
  unfold carried
  split
  · rename_i c
    refine List.pairwise_filterMap.2 (List.Pairwise.imp_of_mem ?_ hs)
    intro p q hp hq ha p' hp' q' hq'
    exact apart_outward hu h (he p hp) (he q hq) ha hp' hq'
  · exact hi

/-! ## Under a mapping -/

theorem rooted_force {t : Tree} (h : Rooted origins t) : Rooted origins t.force :=
  ⟨fun leaf hl => by rw [Tree.itemAt?_force]; exact h.found leaf hl, h.apart⟩

theorem enteredBy_force {t : Tree} {c : Option Cursor} (h : t.EnteredBy c) :
    t.force.EnteredBy c := fun p hp => (Tree.enters_congr (Tree.skeleton_force t)).2 (h p hp)

theorem resolvedBy_force {t : Tree} {c : Option Cursor} (h : t.ResolvedBy c) :
    t.force.ResolvedBy c := fun p hp => by
  rw [Tree.itemAt?_force]
  exact h p hp

def hungPoint (branch : Placed) (q : Path) : Path := unlift branch.tree.single?.isSome q

def HungResolved (branch : Placed) : Prop :=
  ∀ q ∈ pointsOf branch.cursor, ((lift branch.tree).itemAt? (hungPoint branch q)).isSome = true

theorem hungResolved_iff {branch : Placed} (h : branch.tree.EnteredBy branch.cursor) :
    HungResolved branch ↔ branch.tree.ResolvedBy branch.cursor := by
  unfold HungResolved Tree.ResolvedBy Tree.Resolves hungPoint
  constructor
  · intro hr q hq
    rw [← (enters_lift (h q hq)).2]
    exact hr q hq
  · intro hr q hq
    rw [(enters_lift (h q hq)).2]
    exact hr q hq

/-- **A mapping is led into by its branches' points exactly if every branch is.** -/
theorem resolvedBy_hangAll {t : Tree} {branch : Path → Placed} :
    (hangAll branch t.seqPaths ⟨t, none⟩).tree.ResolvedBy
        (hangAll branch t.seqPaths ⟨t, none⟩).cursor ↔
      ∀ p ∈ t.seqPaths, HungResolved (branch p) := by
  have hi : ∀ p ∈ t.seqPaths, ∀ q, (hangAll branch t.seqPaths ⟨t, none⟩).tree.itemAt? (p ++ q) =
      (lift (branch p).tree).itemAt? q := fun p hp q =>
    Tree.itemAt?_subtree? (subtree?_hangAll_seqPaths hp)
  constructor
  · intro h p hp q hq
    rw [← hi p hp]
    exact h _ (mem_hangAll_points.2 ⟨p, hp, q, hq, rfl⟩)
  · intro h r hr
    obtain ⟨p, hp, q, hq, rfl⟩ := mem_hangAll_points.1 hr
    rw [hi p hp]
    exact h p hp q hq

theorem pointsApart_hangAll {t : Tree} {branch : Path → Placed}
    (h : ∀ p ∈ t.seqPaths,
      ((pointsOf (branch p).cursor).map (hungPoint (branch p))).Pairwise Path.Apart) :
    PointsApart (hangAll branch t.seqPaths ⟨t, none⟩).cursor := by
  have hn : pointsOf (none : Option Cursor) = [] := rfl
  rw [PointsApart, hangAll_points, hn, List.nil_append, List.pairwise_flatMap]
  constructor
  · intro p hp
    have hb := List.pairwise_map.1 (h p hp)
    exact List.pairwise_map.2 (hb.imp Path.apart_append.2)
  · refine (Tree.pairwise_apart_seqPaths t).imp fun hpq x hx y hy => ?_
    obtain ⟨q, -, rfl⟩ := List.mem_map.1 hx
    obtain ⟨r, -, rfl⟩ := List.mem_map.1 hy
    exact hpq.append _ _

section

variable {outer : Placed} {shaped : Tree} {p : Path} {s : Seq Item}

theorem itemsAt_of_subtree? (hp : shaped.subtree? p = some (.seq s)) :
    itemsAt shaped p = s.toList := by
  rw [itemsAt, Tree.seqAt?_eq_some.2 hp]
  rfl

theorem enteredBy_below (hc : shaped.EnteredBy sub) (hp : shaped.subtree? p = some (.seq s)) :
    (Tree.seq s).EnteredBy (sub.map (below p)) := fun _ hq =>
  (Tree.enters_subtree? hp).1 (hc _ (mem_below.1 hq))

theorem resolvedBy_below (hc : shaped.ResolvedBy sub) (hp : shaped.subtree? p = some (.seq s)) :
    (Tree.seq s).ResolvedBy (sub.map (below p)) := fun q hq => by
  rw [← Tree.itemAt?_subtree? hp]
  exact hc _ (mem_below.1 hq)

theorem pointsApart_below (hs : PointsApart sub) : PointsApart (sub.map (below p)) := by
  cases sub with
  | none => exact pointsApart_none
  | some c =>
    refine List.pairwise_filterMap.2 (List.Pairwise.imp ?_ hs)
    intro a b hab a' ha b' hb
    rw [Path.strip?_eq_some_iff] at ha hb
    subst ha hb
    exact Path.apart_append.1 hab

theorem hungPoint_of_enters {branch : Placed} {q : Path} (h : Tree.Enters q (.seq s)) :
    hungPoint branch q = q := by
  obtain ⟨j, rest, rfl⟩ := Tree.eq_of_enters_seq h
  rfl

theorem pairwise_apart_branchAt (h : Rooted origins outer.tree)
    (ho : outer.tree.EnteredBy outer.cursor) (hi : PointsApart outer.cursor)
    (hc : shaped.EnteredBy sub) (hs : PointsApart sub) (hp : shaped.subtree? p = some (.seq s)) :
    ((pointsOf (branchAt origins outer sub shaped p).cursor).map
      (hungPoint (branchAt origins outer sub shaped p))).Pairwise Path.Apart := by
  have hb := enteredBy_below hc hp
  have ha := pointsApart_below (p := p) hs
  rw [branchAt, itemsAt_of_subtree? hp]
  refine List.pairwise_map.2 ?_
  cases hh : homeless origins s.toList with
  | true =>
    rw [replantOrReplace_of_homeless hh]
    refine List.Pairwise.imp_of_mem ?_ ha
    intro q r hq hr hqr
    rwa [hungPoint_of_enters (hb q hq), hungPoint_of_enters (hb r hr)]
  | false =>
    have hout := replanted_of_settled (sub.map (below p)) outer hh
    have he := hout.enters (fun leaf hl => Tree.enters_of_itemAt? (h.found leaf hl)) ho
    refine List.Pairwise.imp_of_mem ?_
      (pairwise_apart_replanted h.apart (u := .seq s) rfl hb ha hi hout)
    intro q r hq hr hqr
    exact apart_unlift (he q hq) (he r hr) hqr

theorem hungResolved_branchAt_none (h : Rooted origins outer.tree)
    (ho : outer.tree.ResolvedBy outer.cursor) (hp : shaped.subtree? p = some (.seq s)) :
    HungResolved (branchAt origins outer none shaped p) ↔
      Shelters origins (itemsAt shaped p) (pointsOf outer.cursor) := by
  rw [itemsAt_of_subtree? hp, branchAt, itemsAt_of_subtree? hp, Option.map_none,
    ← h.resolvedBy_replantOrReplace ho]
  refine hungResolved_iff ?_
  cases hh : homeless origins s.toList with
  | true =>
    rw [replantOrReplace_of_homeless hh]
    exact fun _ hq => absurd hq List.not_mem_nil
  | false =>
    exact (replanted_of_settled _ _ hh).enters
      (fun leaf hl => Tree.enters_of_itemAt? (h.found leaf hl)) ho.entered

theorem hungResolved_branchAt_some (h : Rooted origins outer.tree)
    (ho : outer.tree.EnteredBy outer.cursor) {c : Cursor} (hc : shaped.ResolvedBy (some c))
    (hp : shaped.subtree? p = some (.seq s)) :
    HungResolved (branchAt origins outer (some c) shaped p) := by
  have hb := resolvedBy_below hc hp
  rw [branchAt, itemsAt_of_subtree? hp]
  cases hh : homeless origins s.toList with
  | true =>
    rw [replantOrReplace_of_homeless hh]
    intro q hq
    rw [hungPoint_of_enters (hb.entered q hq)]
    exact resolvedBy_force hb q hq
  | false =>
    have hout := replanted_of_settled (some (below p c)) outer hh
    exact (hungResolved_iff (hout.enters
      (fun leaf hl => Tree.enters_of_itemAt? (h.found leaf hl)) ho)).2
      (h.resolvedBy_replanted_sub (u := .seq s) rfl hb hout)

end

/-! ## Putting the outcome of a subquery back -/

def SheltersAll (origins : List Leaf) (t : Tree) (points : List Path) : Prop :=
  ∀ p ∈ t.seqPaths, Shelters origins (itemsAt t p) points

theorem sheltersAll_anon {s : Seq Item} {points : List Path} :
    SheltersAll origins (.anon s) points ↔ Shelters origins s.toList points := by
  unfold SheltersAll Tree.anon
  rw [Tree.seqPaths, Tree.seqPathsOfEntries, Tree.seqPathsOfEntries, List.append_nil, Tree.seqPaths]
  exact List.forall_mem_singleton

variable {child : Session} {outer : Placed}

/-- **Points lie apart after the outcome of a subquery was put back.** -/
theorem pointsApart_place (h : Rooted origins outer.tree)
    (ho : outer.tree.EnteredBy outer.cursor) (hi : PointsApart outer.cursor)
    (hc : child.Entered) (hs : PointsApart child.cursor) :
    PointsApart (place origins child outer).cursor := by
  unfold place
  split
  · rename_i s hu
    cases hh : homeless origins s.toList with
    | true => rwa [replantOrReplace_of_homeless hh]
    | false => exact pairwise_apart_replanted h.apart hu hc hs hi (replanted_of_settled _ _ hh)
  · rw [replantUnder_eq]
    refine pointsApart_hangAll fun p hp => ?_
    obtain ⟨s, hps⟩ := exists_seq_of_mem_seqPaths hp
    exact pairwise_apart_branchAt (rooted_force h) (enteredBy_force ho) hi hc hs hps

/--
**Without a cursor of the subquery the points lead to items exactly if its results shelter them.**
-/
theorem resolvedBy_place_none (h : Rooted origins outer.tree)
    (ho : outer.tree.ResolvedBy outer.cursor) (hm : child.tree.IsMapping)
    (hc : child.cursor = none) :
    (place origins child outer).tree.ResolvedBy (place origins child outer).cursor ↔
      SheltersAll origins child.tree (pointsOf outer.cursor) := by
  unfold place
  rw [hc]
  split
  · rename_i s hu
    rw [hm.eq_anon hu, sheltersAll_anon]
    exact h.resolvedBy_replantOrReplace ho
  · rw [replantUnder_eq, resolvedBy_hangAll]
    refine forall₂_congr fun p hp => ?_
    obtain ⟨s, hps⟩ := exists_seq_of_mem_seqPaths hp
    exact hungResolved_branchAt_none (rooted_force h) (resolvedBy_force ho) hps

/-- **A cursor that the subquery brings along leads to items.** -/
theorem resolvedBy_place_some (h : Rooted origins outer.tree)
    (ho : outer.tree.EnteredBy outer.cursor) (hm : child.tree.IsMapping) {c : Cursor}
    (hc : child.cursor = some c) (hr : child.tree.ResolvedBy child.cursor) :
    (place origins child outer).tree.ResolvedBy (place origins child outer).cursor := by
  unfold place
  rw [hc] at hr ⊢
  split
  · rename_i s hu
    cases hh : homeless origins s.toList with
    | true =>
      rw [replantOrReplace_of_homeless hh]
      rw [hm.eq_anon hu] at hr
      exact resolvedBy_force hr
    | false => exact h.resolvedBy_replanted_sub hu hr (replanted_of_settled _ _ hh)
  · rw [replantUnder_eq, resolvedBy_hangAll]
    intro p hp
    obtain ⟨s, hps⟩ := exists_seq_of_mem_seqPaths hp
    have ho' := enteredBy_force ho
    exact hungResolved_branchAt_some (rooted_force h) ho' hr hps

end Replant

end GraphQuery
