import GraphQuery.Proofs.Execution.Matching
/-!
# What replanting does

The steps of replanting, each said once: which tree and which points there are after results were
put back (`Replant.Replanted`), where a branch goes when it is hung under a mapping
(`Replant.hang_tree`, `Replant.hang_points`), and where all branches and their points are in the end
(`Replant.subtree?_hangAll`, `Replant.hangAll_points`).
-/

namespace GraphQuery

def pointsOf (c : Option Cursor) : List Path := (c.map Cursor.points).getD []

namespace Replant

variable {origins : List Leaf} {results : List Item} {sub : Option Cursor} {into : Placed}

theorem placed_eq {x y : Placed} (ht : x.tree = y.tree) (hc : x.cursor = y.cursor) : x = y := by
  cases x
  cases y
  cases ht
  cases hc
  rfl

/-! ## Removing the leaves without a result -/

def removals (origins : List Leaf) (results : List Item) : List Path :=
  stableSort (fun a b => Path.order b a) (unused (assign origins [] results) 0 origins)

theorem mem_unused {assignment : List (Option Nat)} {p : Path} :
    ∀ {index : Nat} {origins : List Leaf}, p ∈ unused assignment index origins ↔
      ∃ (k : Nat) (leaf : Leaf), origins[k]? = some leaf ∧ some (index + k) ∉ assignment ∧
        leaf.path = p
  | index, [] => by simp [unused]
  | index, leaf :: rest => by
    have hrest : p ∈ unused assignment (index + 1) rest ↔ ∃ (k : Nat) (l : Leaf),
        (leaf :: rest)[k + 1]? = some l ∧ some (index + (k + 1)) ∉ assignment ∧ l.path = p := by
      rw [mem_unused]
      simp only [List.getElem?_cons_succ, Nat.add_assoc, Nat.add_comm 1]
    rw [unused]
    split
    · rename_i hc
      rw [List.contains_iff_mem] at hc
      rw [hrest]
      constructor
      · rintro ⟨k, l, h⟩
        exact ⟨k + 1, l, h⟩
      · rintro ⟨_ | k, l, hl, hk, h⟩
        · exact absurd hc hk
        · exact ⟨k, l, hl, hk, h⟩
    · rename_i hc
      rw [List.contains_iff_mem] at hc
      rw [List.mem_cons, hrest]
      constructor
      · rintro (rfl | ⟨k, l, h⟩)
        · exact ⟨0, leaf, rfl, hc, rfl⟩
        · exact ⟨k + 1, l, h⟩
      · rintro ⟨_ | k, l, hl, hk, h⟩
        · cases hl
          exact .inl h.symm
        · exact .inr ⟨k, l, hl, hk, h⟩

theorem mem_removals {p : Path} : p ∈ removals origins results ↔
    ∃ (k : Nat) (leaf : Leaf), origins[k]? = some leaf ∧
      some k ∉ assign origins [] results ∧ leaf.path = p := by
  rw [removals, (perm_stableSort _ _).mem_iff, mem_unused]
  simp only [Nat.zero_add]

theorem skeleton_prune : ∀ (removed points : List Path) (t : Tree),
    (prune removed points t).2.skeleton = t.skeleton
  | [], _, _ => rfl
  | p :: rest, points, t => by
    rw [prune, skeleton_prune, Tree.skeleton_removeAt]

theorem enters_prune : ∀ {removed points : List Path} {t : Tree},
    (∀ q ∈ points, Tree.Enters q t) → ∀ q ∈ (prune removed points t).1, Tree.Enters q t
  | [], _, _, h => h
  | p :: rest, points, t, h => by
    rw [prune]
    intro q hq
    rw [← Tree.enters_removeAt (r := p)]
    refine enters_prune (fun r hr => ?_) q hq
    obtain ⟨r', hr', hs⟩ := List.mem_filterMap.1 hr
    exact Tree.enters_removeAt.2 ((h r' hr').shift? hs)

/-! ## Putting results back -/

def carried (origins : List Leaf) (results : List Item) (sub : Option Cursor) (into : Placed) :
    List Path :=
  match sub with
  | some c => c.points.filterMap (outward origins (assign origins [] results))
  | none => pointsOf into.cursor

def planted (origins : List Leaf) (results : List Item) (into : Placed) : Tree :=
  into.tree.putAll (placements origins results)

def homeless (origins : List Leaf) (results : List Item) : Bool :=
  !results.isEmpty && (assign origins [] results).all Option.isNone

/-- **Results are put in their places, and then the leaves without one are removed.** -/
theorem replant?_eq : replant? origins results sub into =
    if homeless origins results then none
    else
      let pruned := prune (removals origins results) (carried origins results sub into)
        (planted origins results into)
      some ⟨pruned.2, (sub.or into.cursor).map fun c => ⟨pruned.1, c.key⟩⟩ := by
  unfold replant? homeless planted
  rw [placements, ← overwrite_eq]
  rfl

theorem replantOrReplace_of_homeless (h : homeless origins results = true) :
    replantOrReplace origins results sub into = ⟨.ofItems results, sub⟩ := by
  rw [replantOrReplace, replant?_eq, if_pos h]
  rfl

structure Replanted (origins : List Leaf) (results : List Item) (sub : Option Cursor)
    (into out : Placed) : Prop where
  tree : out.tree = (prune (removals origins results) (carried origins results sub into)
    (planted origins results into)).2
  points : pointsOf out.cursor = (prune (removals origins results)
    (carried origins results sub into) (planted origins results into)).1
  key : out.cursor.map Cursor.key = (sub.or into.cursor).map Cursor.key

theorem prune_nil : ∀ (removed : List Path) (t : Tree), (prune removed [] t).1 = []
  | [], _ => rfl
  | _ :: rest, _ => prune_nil rest _

theorem replanted_of_settled (sub : Option Cursor) (into : Placed)
    (h : homeless origins results = false) :
    Replanted origins results sub into (replantOrReplace origins results sub into) := by
  rw [replantOrReplace, replant?_eq, if_neg (by simp [h])]
  refine ⟨rfl, ?_, ?_⟩
  · cases sub with
    | some c => rfl
    | none =>
      cases hc : into.cursor with
      | some c => simp [pointsOf]
      | none =>
        rw [carried, hc]
        exact (prune_nil _ _).symm
  · simp only [Option.getD_some, Option.map_map]
    rfl

theorem Replanted.skeleton {out : Placed} (h : Replanted origins results sub into out) :
    out.tree.skeleton = into.tree.skeleton := by
  rw [h.tree, skeleton_prune, planted, Tree.skeleton_putAll]

theorem outward_item (assignment : List (Option Nat)) (s : Nat) (rest : Path) :
    outward origins assignment (.item s :: rest) =
      (assignment[s]?.join.bind (origins[·]?)).map fun leaf => leaf.path ++ rest := by
  simp only [outward]
  rcases assignment[s]? with _ | _ | o <;> rfl

theorem outward_item_eq_some {assignment : List (Option Nat)} {s : Nat} {rest q : Path} :
    outward origins assignment (.item s :: rest) = some q ↔ ∃ o leaf,
      assignment[s]? = some (some o) ∧ origins[o]? = some leaf ∧ q = leaf.path ++ rest := by
  rw [outward_item]
  constructor
  · intro h
    obtain ⟨leaf, hl, rfl⟩ := Option.map_eq_some_iff.1 h
    obtain ⟨o, ho, hl⟩ := Option.bind_eq_some_iff.1 hl
    exact ⟨o, leaf, Option.join_eq_some_iff.1 ho, hl, rfl⟩
  · rintro ⟨o, leaf, ho, hl, rfl⟩
    simp [ho, hl]

theorem outward_entry_item (assignment : List (Option Nat)) (s : Nat) (rest : Path) :
    outward origins assignment (.entry 0 :: .item s :: rest) =
      outward origins assignment (.item s :: rest) := rfl

theorem outward_eq_some {assignment : List (Option Nat)} {q : Path} : ∀ {p : Path},
    outward origins assignment p = some q → ∃ (s o : Nat) (leaf : Leaf) (rest : Path),
      (p = .entry 0 :: .item s :: rest ∨ p = .item s :: rest) ∧
        assignment[s]? = some (some o) ∧ origins[o]? = some leaf ∧ q = leaf.path ++ rest
  | .item s :: rest, h => by
    obtain ⟨o, leaf, h⟩ := outward_item_eq_some.1 h
    exact ⟨s, o, leaf, rest, .inr rfl, h⟩
  | .entry 0 :: .item s :: rest, h => by
    rw [outward_entry_item] at h
    obtain ⟨o, leaf, h⟩ := outward_item_eq_some.1 h
    exact ⟨s, o, leaf, rest, .inl rfl, h⟩
  | [], h | .field _ :: _, h | .entry (_ + 1) :: _, h | [.entry 0], h
  | .entry 0 :: .entry _ :: _, h | .entry 0 :: .field _ :: _, h => by cases h

theorem Replanted.enters {out : Placed} (h : Replanted origins results sub into out)
    (ho : ∀ leaf ∈ origins, Tree.Enters leaf.path into.tree)
    (hi : ∀ q ∈ pointsOf into.cursor, Tree.Enters q into.tree) :
    ∀ q ∈ pointsOf out.cursor, Tree.Enters q out.tree := by
  intro q hq
  have hs : (planted origins results into).skeleton = into.tree.skeleton :=
    Tree.skeleton_putAll _ _
  rw [Tree.enters_congr h.skeleton, ← Tree.enters_congr hs]
  rw [h.points] at hq
  refine enters_prune (fun p hp => ?_) q hq
  rw [Tree.enters_congr hs]
  unfold carried at hp
  split at hp
  · obtain ⟨p', -, hp'⟩ := List.mem_filterMap.1 hp
    obtain ⟨s, o, leaf, rest, -, -, hl, rfl⟩ := outward_eq_some hp'
    exact (ho leaf (List.mem_of_getElem? hl)).append rest
  · exact hi p hp

/-! ## Hanging branches under a mapping -/

def lift (t : Tree) : Tree := t.single?.elim t .seq

theorem hang_tree (p : Path) (branch whole : Placed) :
    (hang p branch whole).tree = whole.tree.changeSubtree (fun _ => lift branch.tree) p := by
  unfold hang lift
  cases branch.tree.single? <;> rfl

theorem hang_points (p : Path) (branch whole : Placed) :
    pointsOf (hang p branch whole).cursor = pointsOf whole.cursor ++
      (pointsOf branch.cursor).map (rejoin p branch.tree.single?.isSome) := by
  unfold hang
  cases branch.cursor with
  | none => simp [pointsOf]
  | some c => rfl

def unlift (lifted : Bool) : Path → Path
  | .entry 0 :: rest => if lifted then rest else .entry 0 :: rest
  | steps => steps

theorem unlift_false (p : Path) : unlift false p = p := by
  unfold unlift
  split <;> rfl

theorem rejoin_eq (p : Path) (lifted : Bool) (q : Path) :
    rejoin p lifted q = p ++ unlift lifted q := by
  unfold rejoin
  split
  · unfold unlift
    split <;> rfl
  · rename_i h
    unfold unlift
    split
    · exact absurd rfl (h _)
    · rfl

theorem enters_lift {q : Path} {t : Tree} (h : Tree.Enters q t) :
    Tree.Enters (unlift t.single?.isSome q) (lift t) ∧
      (lift t).itemAt? (unlift t.single?.isSome q) = t.itemAt? q := by
  cases hs : t.single? with
  | none =>
    rw [lift, hs, Option.isSome_none, unlift_false]
    exact ⟨h, rfl⟩
  | some s =>
    rw [lift, hs]
    rcases Tree.single?_eq_some.1 hs with rfl | rfl
    · obtain ⟨j, rest, rfl⟩ := Tree.eq_of_enters_seq h
      exact ⟨trivial, rfl⟩
    · obtain ⟨j, rest, rfl⟩ := Tree.eq_of_enters_anon h
      exact ⟨trivial, rfl⟩

theorem apart_unlift {q r : Path} {t : Tree} (hq : Tree.Enters q t) (hr : Tree.Enters r t)
    (h : q.Apart r) : (unlift t.single?.isSome q).Apart (unlift t.single?.isSome r) := by
  cases hs : t.single? with
  | none => rwa [Option.isSome_none, unlift_false, unlift_false]
  | some s =>
    rcases Tree.single?_eq_some.1 hs with rfl | rfl
    · obtain ⟨j, q', rfl⟩ := Tree.eq_of_enters_seq hq
      obtain ⟨k, r', rfl⟩ := Tree.eq_of_enters_seq hr
      exact h
    · obtain ⟨j, q', rfl⟩ := Tree.eq_of_enters_anon hq
      obtain ⟨k, r', rfl⟩ := Tree.eq_of_enters_anon hr
      exact Path.apart_cons_self.1 h

/-! ## Hanging all branches -/

def hangAll (branch : Path → Placed) (paths : List Path) (whole : Placed) : Placed :=
  paths.foldl (fun whole p => hang p (branch p) whole) whole

variable {branch : Path → Placed} {whole : Placed}

def itemsAt (t : Tree) (p : Path) : List Item := (t.seqAt? p).elim [] Seq.toList

def branchAt (origins : List Leaf) (outer : Placed) (sub : Option Cursor) (shaped : Tree)
    (p : Path) : Placed :=
  replantOrReplace origins (itemsAt shaped p) (sub.map (below p)) outer

/-- **Every branch is made from the mapping as the subquery left it.** -/
theorem replantAll_eq {outer : Placed} {shaped : Tree} : ∀ {paths : List Path} {whole : Placed},
    paths.Pairwise Path.Apart → (∀ p ∈ paths, ∃ s, shaped.subtree? p = some (.seq s)) →
      (∀ p ∈ paths, whole.tree.subtree? p = shaped.subtree? p) →
      replantAll origins outer sub paths whole =
        hangAll (branchAt origins outer sub shaped) paths whole
  | [], _, _, _, _ => rfl
  | p :: rest, whole, hp, hs, hw => by
    obtain ⟨ha, hp⟩ := List.pairwise_cons.1 hp
    obtain ⟨s, hsp⟩ := hs p List.mem_cons_self
    have hb : branchAt origins outer sub shaped p =
        replantOrReplace origins s.toList (sub.map (below p)) outer := by
      rw [branchAt, itemsAt, Tree.seqAt?_eq_some.2 hsp]
      rfl
    have hq : whole.tree.seqAt? p = some s := by
      rw [Tree.seqAt?_eq_some, hw p List.mem_cons_self, hsp]
    -- a branch hung at `p` leaves the sequences still to come as the subquery left them
    have hr : ∀ q ∈ rest, (hang p (branchAt origins outer sub shaped p) whole).tree.subtree? q =
        shaped.subtree? q := fun q hq => by
      rw [hang_tree, Tree.subtree?_changeSubtree_apart (ha q hq),
        hw q (List.mem_cons_of_mem p hq)]
    rw [hangAll, List.foldl_cons, ← hangAll,
      ← replantAll_eq hp (fun q hq => hs q (List.mem_cons_of_mem p hq)) hr, replantAll, hq, hb]

theorem exists_seq_of_mem_seqPaths {t : Tree} {p : Path} (h : p ∈ t.seqPaths) :
    ∃ s, t.subtree? p = some (.seq s) := by
  obtain ⟨s, -, hs⟩ := Tree.seqAt?_of_mem_seqPaths h
  exact ⟨s, Tree.seqAt?_eq_some.1 hs⟩

theorem replantUnder_eq {outer : Placed} {shaped : Tree} :
    replantUnder origins shaped sub outer =
      hangAll (branchAt origins ⟨outer.tree.force, outer.cursor⟩ sub shaped) shaped.seqPaths
        ⟨shaped, none⟩ :=
  replantAll_eq (Tree.pairwise_apart_seqPaths shaped) (fun _ => exists_seq_of_mem_seqPaths)
    fun _ _ => rfl

theorem hangAll_points : ∀ {paths : List Path} {whole : Placed},
    pointsOf (hangAll branch paths whole).cursor = pointsOf whole.cursor ++
      paths.flatMap fun p =>
        (pointsOf (branch p).cursor).map fun q => p ++ unlift (branch p).tree.single?.isSome q
  | [], _ => by simp [hangAll]
  | p :: rest, whole => by
    rw [hangAll, List.foldl_cons, ← hangAll, hangAll_points, hang_points, List.flatMap_cons,
      List.append_assoc, funext (rejoin_eq p _)]

theorem subtree?_hangAll_apart {q : Path} : ∀ {paths : List Path} {whole : Placed},
    (∀ p ∈ paths, p.Apart q) → (hangAll branch paths whole).tree.subtree? q = whole.tree.subtree? q
  | [], _, _ => rfl
  | p :: rest, whole, h => by
    rw [hangAll, List.foldl_cons, ← hangAll,
      subtree?_hangAll_apart fun r hr => h r (List.mem_cons_of_mem p hr), hang_tree,
      Tree.subtree?_changeSubtree_apart (h p List.mem_cons_self)]

/-- **Every branch stands in its place.** -/
theorem subtree?_hangAll {p : Path} : ∀ {paths : List Path} {whole : Placed},
    paths.Pairwise Path.Apart → (∀ q ∈ paths, (whole.tree.subtree? q).isSome = true) → p ∈ paths →
      (hangAll branch paths whole).tree.subtree? p = some (lift (branch p).tree)
  | [], _, _, _, h => by cases h
  | q :: rest, whole, hp, hs, h => by
    obtain ⟨ha, hp⟩ := List.pairwise_cons.1 hp
    rw [hangAll, List.foldl_cons, ← hangAll]
    rcases List.mem_cons.1 h with rfl | h
    · rw [subtree?_hangAll_apart fun r hr => (ha r hr).symm, hang_tree, Tree.subtree?_changeSubtree]
      obtain ⟨u, hu⟩ := Option.isSome_iff_exists.1 (hs p List.mem_cons_self)
      rw [hu]
      rfl
    · refine subtree?_hangAll hp (fun r hr => ?_) h
      rw [hang_tree, Tree.subtree?_changeSubtree_apart (ha r hr)]
      exact hs r (List.mem_cons_of_mem q hr)

theorem subtree?_hangAll_seqPaths {t : Tree} {p : Path} (h : p ∈ t.seqPaths) :
    (hangAll branch t.seqPaths ⟨t, none⟩).tree.subtree? p = some (lift (branch p).tree) := by
  refine subtree?_hangAll (Tree.pairwise_apart_seqPaths t) (fun q hq => ?_) h
  obtain ⟨s, hs⟩ := exists_seq_of_mem_seqPaths hq
  rw [hs]
  rfl

theorem mem_hangAll_points {t : Tree} {paths : List Path} {q : Path} :
    q ∈ pointsOf (hangAll branch paths ⟨t, none⟩).cursor ↔
      ∃ p ∈ paths, ∃ r ∈ pointsOf (branch p).cursor,
        q = p ++ unlift (branch p).tree.single?.isSome r := by
  rw [hangAll_points]
  simp only [pointsOf, Option.map_none, Option.getD_none, List.nil_append, List.mem_flatMap,
    List.mem_map, eq_comm]

end Replant

end GraphQuery
