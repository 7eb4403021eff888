import GraphQuery.Proofs.Execution.Entering
/-!
# Nesting and applying

A subquery may nest its result, or the query may nest what the subquery leaves: on one sequence both
come to the same (`Plan.run_apply_nest`).  The first goes through the mapping that the subquery
built, sequence by sequence, and the second does not, unless the subquery built a mapping of its
own; so the two are compared where results are put back (`Replant.place_nest`).
-/

namespace GraphQuery

def Cursor.nest (c : Cursor) : Cursor := ⟨c.points.map (.entry 0 :: ·), c.key⟩

namespace Replant

def Placed.nest (key : String) (x : Placed) : Placed :=
  ⟨.map [(.name key, x.tree)], x.cursor.map Cursor.nest⟩

variable {origins : List Leaf} {results : List Item} {sub : Option Cursor} {outer : Placed}
  {key : String} {p : Path}

/-! ## Mappings one key deeper -/

theorem seqPaths_under (key : Key) (t : Tree) :
    (Tree.map [(key, t)]).seqPaths = t.seqPaths.map (.entry 0 :: ·) := by
  simp [Tree.seqPaths, Tree.seqPathsOfEntries]

theorem below_nest (p : Path) (sub : Option Cursor) :
    (sub.map Cursor.nest).map (below (.entry 0 :: p)) = sub.map (below p) := by
  cases sub with
  | none => rfl
  | some c =>
    have hs : ∀ q, Path.strip? (.entry 0 :: q) (.entry 0 :: p) = Path.strip? q p := fun q => by
      simp [Path.strip?]
    simp only [Option.map_some, below, Cursor.nest, List.filterMap_map, Function.comp_def, hs]

theorem hang_nest (branch whole : Placed) :
    hang (.entry 0 :: p) branch (whole.nest key) = (hang p branch whole).nest key := by
  have hr : ∀ q, rejoin (.entry 0 :: p) branch.tree.single?.isSome q =
      .entry 0 :: rejoin p branch.tree.single?.isSome q := fun q => by
    rw [rejoin_eq, rejoin_eq, List.cons_append]
  have ht : (hang (.entry 0 :: p) branch (whole.nest key)).tree =
      ((hang p branch whole).nest key).tree := by
    rw [hang_tree, Placed.nest, Placed.nest, hang_tree]
    rfl
  have hc : (hang (.entry 0 :: p) branch (whole.nest key)).cursor =
      ((hang p branch whole).nest key).cursor := by
    unfold hang Placed.nest
    cases branch.cursor with
    | none => rfl
    | some c => cases whole.cursor <;> simp [Cursor.nest, hr]
  exact placed_eq ht hc

/-- **Replanting one key deeper is replanting, one key deeper.** -/
theorem replantAll_nest : ∀ (paths : List Path) (whole : Placed),
    replantAll origins outer (sub.map Cursor.nest) (paths.map (.entry 0 :: ·)) (whole.nest key) =
      (replantAll origins outer sub paths whole).nest key
  | [], _ => rfl
  | p :: rest, whole => by
    have hs : (whole.nest key).tree.seqAt? (.entry 0 :: p) = whole.tree.seqAt? p := rfl
    rw [List.map_cons, replantAll, replantAll, hs]
    cases whole.tree.seqAt? p with
    | none => exact replantAll_nest rest whole
    | some s =>
      simp only []
      rw [below_nest, hang_nest]
      exact replantAll_nest rest _

/-! ## One sequence -/

theorem map_rejoin_strip? : ∀ {points : List Path}, (∀ q ∈ points, ∃ j rest,
    q = .entry 0 :: .item j :: rest) →
    (points.filterMap (Path.strip? · [.entry 0])).map (rejoin [.entry 0, .entry 0] true) =
      points.map (.entry 0 :: ·)
  | [], _ => rfl
  | q :: points, h => by
    obtain ⟨j, rest, rfl⟩ := h q List.mem_cons_self
    have hs : Path.strip? (.entry 0 :: .item j :: rest) [.entry 0] = some (.item j :: rest) := by
      simp [Path.strip?]
    rw [List.filterMap_cons, hs, List.map_cons, List.map_cons,
      map_rejoin_strip? fun r hr => h r (List.mem_cons_of_mem _ hr)]
    rfl

theorem map_rejoin : ∀ {points : List Path}, (∀ q ∈ points, ∃ j rest,
    q = .entry 0 :: .item j :: rest) →
    points.map (rejoin [.entry 0, .entry 0] true) = points.map (.entry 0 :: ·)
  | [], _ => rfl
  | q :: points, h => by
    obtain ⟨j, rest, rfl⟩ := h q List.mem_cons_self
    rw [List.map_cons, List.map_cons, map_rejoin fun r hr => h r (List.mem_cons_of_mem _ hr)]
    rfl

theorem filterMap_outward_strip? (assignment : List (Option Nat)) : ∀ {points : List Path},
    (∀ q ∈ points, ∃ j rest, q = .entry 0 :: .item j :: rest) →
    (points.filterMap (Path.strip? · [.entry 0])).filterMap (outward origins assignment) =
      points.filterMap (outward origins assignment)
  | [], _ => rfl
  | q :: points, h => by
    obtain ⟨j, rest, rfl⟩ := h q List.mem_cons_self
    have hs : Path.strip? (.entry 0 :: .item j :: rest) [.entry 0] = some (.item j :: rest) := by
      simp [Path.strip?]
    rw [List.filterMap_cons, hs, List.filterMap_cons, List.filterMap_cons,
      filterMap_outward_strip? assignment fun r hr => h r (List.mem_cons_of_mem _ hr),
      outward_entry_item]

theorem replantOrReplace_below (h : homeless origins results = false)
    (hc : ∀ q ∈ pointsOf sub, ∃ j rest, q = .entry 0 :: .item j :: rest) :
    replantOrReplace origins results (sub.map (below [.entry 0])) outer =
      replantOrReplace origins results sub outer := by
  cases sub with
  | none => rfl
  | some c =>
    have hp : carried origins results (some (below [.entry 0] c)) outer =
        carried origins results (some c) outer :=
      filterMap_outward_strip? (assign origins [] results) hc
    rw [replantOrReplace, replantOrReplace, Option.map_some, replant?_eq, replant?_eq,
      if_neg (by simp [h]), if_neg (by simp [h]), hp]
    rfl

/-- **Under a key, one sequence is replanted as without it.** -/
theorem hang_replantOrReplace {s s₀ : Seq Item} (ho : outer.tree = .anon s₀)
    (hl : ∀ leaf ∈ origins, Tree.Enters leaf.path outer.tree)
    (hi : outer.tree.EnteredBy outer.cursor) (hc : (Tree.anon s).EnteredBy sub) :
    hang [.entry 0, .entry 0]
        (replantOrReplace origins s.toList (sub.map (below [.entry 0])) outer)
        ⟨.map [(.name key, .anon s)], none⟩ =
      (replantOrReplace origins s.toList sub outer).nest key := by
  have hsub : ∀ q ∈ pointsOf sub, ∃ j rest, q = .entry 0 :: .item j :: rest :=
    fun q hq => Tree.eq_of_enters_anon (hc q hq)
  cases h : homeless origins s.toList with
  | true =>
    rw [replantOrReplace_of_homeless h, replantOrReplace_of_homeless h]
    cases sub with
    | none => rfl
    | some c =>
      exact congrArg (fun points => Placed.mk (.map [(.name key, .ofItems s.toList)])
        (some ⟨points, c.key⟩)) (map_rejoin_strip? hsub)
  | false =>
    rw [replantOrReplace_below h hsub]
    -- the outcome has the outer tree's skeleton: it is one sequence too, and lifted in its turn
    have hr := replanted_of_settled sub outer h
    have he := hr.enters hl hi
    generalize replantOrReplace origins s.toList sub outer = x at hr he ⊢
    obtain ⟨t, c⟩ := x
    obtain ⟨s', rfl⟩ : ∃ s', t = .anon s' := by
      have hk := hr.skeleton
      rw [ho] at hk
      exact Tree.eq_anon_of_skeleton hk
    cases c with
    | none => rfl
    | some c =>
      exact congrArg (fun points => Placed.mk (.map [(.name key, .anon s')])
        (some ⟨points, c.key⟩)) (map_rejoin fun q hq => Tree.eq_of_enters_anon (he q hq))

/-- **Putting back what was nested is nesting what is put back.** -/
theorem place_nest {child : Session} {s₀ : Seq Item} (ho : outer.tree = .anon s₀)
    (hf : outer.tree.force = outer.tree) (hl : ∀ leaf ∈ origins, Tree.Enters leaf.path outer.tree)
    (hi : outer.tree.EnteredBy outer.cursor) (hm : child.tree.IsMapping) (hc : child.Entered) :
    place origins (child.nest key) outer = (place origins child outer).nest key := by
  have hn : (child.nest key).tree.single? = none := by cases child.tree <;> rfl
  have hu : place origins (child.nest key) outer =
      replantAll origins outer (child.cursor.map Cursor.nest)
        (child.tree.seqPaths.map (.entry 0 :: ·)) ⟨.map [(.name key, child.tree)], none⟩ := by
    unfold place
    rw [hn]
    unfold replantUnder
    rw [hf, ← seqPaths_under (.name key)]
    rfl
  rw [hu]
  cases hs : child.tree.single? with
  | none =>
    rw [place, hs]
    unfold replantUnder
    rw [hf]
    exact replantAll_nest child.tree.seqPaths ⟨child.tree, none⟩
  | some s =>
    rw [place, hs]
    have ht := hm.eq_anon hs
    rw [ht]
    show hang [.entry 0, .entry 0] (replantOrReplace origins s.toList
      ((child.cursor.map Cursor.nest).map (below [.entry 0, .entry 0])) outer)
      ⟨.map [(.name key, .anon s)], none⟩ = _
    rw [below_nest]
    refine hang_replantOrReplace ho hl hi ?_
    rw [← ht]
    exact hc

end Replant

namespace Plan

theorem replant_nest {mq child : Machine} {key : String} {s₀ : Seq Item}
    (ht : mq.session.tree = .anon s₀) (he : mq.session.Entered)
    (hm : child.session.tree.IsMapping) (hc : child.session.Entered) :
    mq.replant ⟨child.session.nest key, child.world⟩ =
      ⟨(mq.replant child).session.nest key, (mq.replant child).world⟩ := by
  have hf := Tree.skeleton_force mq.session.tree
  have hp : Replant.place mq.session.tree.leaves (child.session.nest key) mq.placed =
      (Replant.place mq.session.tree.leaves child.session mq.placed).nest key := by
    have hs : mq.placed.tree = .anon s₀.force := by
      show mq.session.tree.force = _
      rw [ht]
      rfl
    refine Replant.place_nest hs (Tree.force_force _) ?_ ?_ hm hc
    · exact fun leaf h => (Tree.enters_congr hf).2 (Tree.enters_of_mem_leaves h)
    · exact fun q hq => (Tree.enters_congr hf).2 (he q hq)
  unfold Machine.replant
  rw [hp]
  rfl

/--
**Nesting the results of a subquery under every leaf is nesting what the subquery leaves**, on an
input that is one sequence: the same tree, the same cursor, the same calls, and the same failure.
-/
theorem run_apply_nest (b : Backend) (key : String) (s q : Plan) (m : Machine)
    (h : ∀ mq, run b q m = .ok () mq → ∃ items, mq.session.tree = .anon items) :
    run b (.apply (.nest key s) q) m = run b (.nest key (.apply s q)) m := by
  rw [run, run, run, run, Run.bind_apply, Run.bind_apply, Run.bind_apply]
  cases hq : run b q m with
  | error e mq => rfl
  | ok a mq =>
    obtain ⟨s₀, ht⟩ := h mq hq
    simp only [Run.applySubquery_apply, Run.bind_apply]
    cases hs : run b s mq.descend with
    | error e child => rfl
    | ok a child =>
      simp only [Run.update_apply]
      rw [replant_nest ht (run_entered q hq) (run_isMapping s hs (Tree.isMapping_anon _))
        (run_entered s hs)]

/-- Friends of two items, nested under each of them or afterwards: the cursor stands at both. -/
theorem run_apply_nest_friends :
    let b : Backend := .ofFunctions (fun _ => .ok []) fun _ id => .ok [Record.ofId id]
    let input : Plan := .literal [.int 1, .int 2]
    (∀ mq, run b input ⟨.empty, {}⟩ = .ok () mq → ∃ items, mq.session.tree = .anon items) ∧
      ∃ m, run b (.apply (.nest "next" (.assocHere "friend")) input) ⟨.empty, {}⟩ = .ok () m ∧
        run b (.nest "next" (.apply (.assocHere "friend") input)) ⟨.empty, {}⟩ = .ok () m ∧
        pointsOf m.session.cursor =
          [[.entry 0, .entry 0, .item 0], [.entry 0, .entry 0, .item 1]] := by
  intro b input
  have h : ∀ mq, run b input ⟨.empty, {}⟩ = .ok () mq → ∃ items, mq.session.tree = .anon items := by
    intro mq hq
    cases hq
    exact ⟨_, rfl⟩
  refine ⟨h, _, rfl, ?_, rfl⟩
  rw [← run_apply_nest b "next" (.assocHere "friend") input _ h]
  rfl

end Plan

end GraphQuery
