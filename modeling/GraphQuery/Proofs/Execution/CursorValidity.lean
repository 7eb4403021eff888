import GraphQuery.Proofs.Execution.CursorPoints
import GraphQuery.Proofs.Execution.Regularity
/-!
# When the points of a cursor lead to items

The points of a cursor that a run leaves lie apart, whatever the plan (`Plan.run_pointsApart`).
They lead to items as long as results shelter the points below the places that they take.  A result
that takes the place of a leaf is equal to the leaf, but equal items need only have the same
identifier: what was below the leaf may be missing from the result, and the points that led there
stay in the cursor although they lead nowhere (`Plan.run_dangling`).  Nothing else can go wrong: a
run and the runs that its cursor comes from leave points that lead to items exactly if every
subquery without a cursor of its own shelters the points it finds (`Plan.run_cursor`).
-/

namespace GraphQuery

def Session.Resolved (s : Session) : Prop := s.tree.ResolvedBy s.cursor

theorem Session.resolved_reset (s : Session) (t : Tree) : (s.reset t).Resolved := t.resolvedBy_none

/-! ## Rewriting branches -/

namespace Rewrite

/-- **Rewriting the branches of a cursor keeps its points on items.** -/
theorem resolvedBy_onBranches (f : Rewrite) {s : Session} {a : Attempt} (ha : PointsApart s.cursor)
    (h : s.Resolved) : (f.onBranches s a).1.ResolvedBy s.cursor := by
  intro q hq
  unfold onBranches
  cases hc : s.cursor with
  | none =>
    rw [hc] at hq
    cases hq
  | some c =>
    rw [hc] at ha hq
    have hr := h q (by rwa [hc])
    exact onPoints_keeps (motive := (·.isSome = true)) (fun _ _ _ => rfl)
      (Path.eq_or_apart_of_mem ha hq) hr

end Rewrite

namespace Run

variable {b : Backend} {type : String} {m m' : Machine}

theorem resolved_of_rewriteBranches {f : Rewrite} (h : rewriteBranches f m = .ok () m')
    (ha : PointsApart m.session.cursor) (hr : m.session.Resolved) : m'.session.Resolved := by
  obtain ⟨t, w, ht, rfl⟩ := rewriteBranches_eq_ok.1 h
  have hb := Rewrite.resolvedBy_onBranches f (a := { world := m.world }) ha hr
  rw [ht] at hb
  exact hb

theorem resolved_of_transform {t : Transform} (h : transform t m = .ok () m')
    (ha : PointsApart m.session.cursor) (hr : m.session.Resolved) : m'.session.Resolved := by
  rw [transform_apply] at h
  split at h
  · exact resolved_of_rewriteBranches h ha hr
  · rename_i hc
    cases h
    intro q hq
    have hn : q ∈ pointsOf m.session.cursor := hq
    rw [hc] at hn
    cases hn

/-! ## Attaching edges -/

theorem sublist_answeredPaths : ∀ (as : Edges.Answered),
    (Edges.answeredPaths as).Sublist (as.map fun a => a.1.path)
  | [] => .slnil
  | (_, none) :: rest => (sublist_answeredPaths rest).cons _
  | (_, some _) :: rest => (sublist_answeredPaths rest).cons_cons _

/-- **Attaching edges leaves points that lie apart and lead to the leaves.** -/
theorem resolved_of_attach (h : attach b type m = .ok () m') (hm : m.session.tree.Regular) :
    PointsApart m'.session.cursor ∧ m'.session.Resolved := by
  obtain ⟨answers, w, hc, rfl⟩ := (attach_answered hm.addressable.isOpen).1 h
  have ha : ((m.session.tree.leaves.zip answers).map fun a => a.1.path).Pairwise Path.Apart :=
    List.pairwise_map.2 (Edges.pairwise_apart_zip (Tree.pairwise_apart_leaves hm.addressable) _)
  refine ⟨ha.sublist (sublist_answeredPaths _), fun q hq => ?_⟩
  obtain ⟨a, hz, hq⟩ := List.mem_filterMap.1 hq
  obtain ⟨edges, -, rfl⟩ := Option.map_eq_some_iff.1 hq
  show ((m.session.tree.force.putAll _).itemAt? a.1.path).isSome = true
  rw [Edges.itemAt?_attachments hm.addressable.isOpen hz]
  rfl

end Run

/-! ## Runs -/

def Backend.silent : Backend := .ofFunctions (fun _ => .ok []) fun _ _ => .ok []

theorem Backend.regular_silent : Backend.silent.Regular :=
  ⟨fun _ _ _ h => by cases h; exact allRegular_nil,
    fun _ _ _ _ h => by cases h; exact allRegular_nil⟩

namespace Machine

/-- **Whether what a subquery leaves holds an item wherever a point leads that stays.** -/
def Shelters (m child : Machine) : Prop :=
  child.session.cursor = none → Replant.SheltersAll m.session.tree.leaves child.session.tree
    (pointsOf m.session.cursor)

variable {m child : Machine}

theorem rooted_placed (h : m.session.tree.Regular) :
    Replant.Rooted m.session.tree.leaves m.placed.tree :=
  Replant.rooted_force ⟨fun _ hl => Tree.itemAt?_of_mem_leaves h.addressable hl,
    Tree.pairwise_apart_leaves h.addressable⟩

theorem pointsApart_replant (h : m.session.tree.Regular) (he : m.session.Entered)
    (ha : PointsApart m.session.cursor) (hc : child.session.Entered)
    (hs : PointsApart child.session.cursor) : PointsApart (m.replant child).session.cursor :=
  have he' : m.placed.tree.EnteredBy m.placed.cursor := Replant.enteredBy_force he
  Replant.pointsApart_place (rooted_placed h) he' ha hc hs

/-- **After a subquery the points lead to items exactly if it shelters them.** -/
theorem resolved_replant (h : m.session.tree.Regular) (hr : m.session.Resolved)
    (hm : child.session.tree.IsMapping) (hc : child.session.Resolved) :
    (m.replant child).session.Resolved ↔ m.Shelters child := by
  have ho : m.placed.tree.ResolvedBy m.placed.cursor := Replant.resolvedBy_force hr
  unfold Shelters
  cases hn : child.session.cursor with
  | none =>
    have hp := Replant.resolvedBy_place_none (rooted_placed h) ho hm hn
    exact ⟨fun h _ => hp.1 h, fun h => hp.2 (h rfl)⟩
  | some c =>
    have hp := Replant.resolvedBy_place_some (rooted_placed h) ho.entered hm hn hc
    exact ⟨fun _ h => (by cases h), fun _ => hp⟩

end Machine

namespace Plan

variable {b : Backend}

/-- **The points of a cursor that a run leaves lie apart.** -/
theorem run_pointsApart (hb : b.Regular) (p : Plan) : ∀ {m m' : Machine}, p.Regular →
    run b p m = .ok () m' → m.session.Regular → PointsApart m'.session.cursor := by
  induction p using cursor_induction with
  | anew p hp =>
    intro m m' _ h _
    obtain ⟨s, t, w, rfl⟩ := run_startsAnew hp h
    exact pointsApart_none
  | transform t q ih =>
    intro m m' hp h hm
    obtain ⟨mq, hq, h⟩ := run_transform.1 h
    rw [(Run.reshaped_of_transform h).cursor]
    exact ih hp.2 hq hm
  | nest key q ih =>
    intro m m' hp h hm
    obtain ⟨mq, hq, rfl⟩ := run_nest.1 h
    rw [PointsApart, pointsOf_nest]
    exact List.pairwise_map.2 ((ih hp hq hm).imp fun ha => Path.apart_cons.2 (.inr ha))
  | target names q ih =>
    intro m m' hp h hm
    obtain ⟨mq, hq, rfl⟩ := run_target.1 h
    have := ih hp hq hm
    exact this
  | apply s q ihs ihq =>
    intro m m' hp h hm
    obtain ⟨mq, hq, child, hs, rfl⟩ := run_apply.1 h
    have hr := (run_regular hb q hp.2 hq hm).tree
    exact Machine.pointsApart_replant hr (run_entered q hq) (ihq hp.2 hq hm) (run_entered s hs)
      (ihs hp.1 hs (Session.regular_within hr.leaves))
  | assoc type q ih =>
    intro m m' hp h hm
    obtain ⟨mq, hq, h⟩ := run_assoc.1 h
    exact (Run.resolved_of_attach h (run_regular hb q hp hq hm).tree).1
  | assocHere type =>
    intro m m' _ h hm
    exact (Run.resolved_of_attach h hm.tree).1
  | obj q ih =>
    intro m m' hp h hm
    obtain ⟨mq, hq, h⟩ := run_obj.1 h
    rw [(Run.reshaped_of_rewriteBranches h).cursor]
    exact ih hp hq hm

/-- Whether every subquery that the cursor of a run comes past shelters the points it finds. -/
def Sheltered (b : Backend) : Plan → Machine → Prop
  | transform _ q, m | nest _ q, m | target _ q, m | obj q, m => Sheltered b q m
  | apply s q, m => Sheltered b q m ∧ ∀ mq, run b q m = .ok () mq →
      Sheltered b s mq.descend ∧ ∀ child, run b s mq.descend = .ok () child → mq.Shelters child
  | _, _ => True

/-- The machines that a run and the runs that its cursor comes from leave. -/
inductive Passes (b : Backend) : Plan → Machine → Machine → Prop
  | run {p : Plan} {m m' : Machine} : run b p m = .ok () m' → Passes b p m m'
  | transform {t : Transform} {q : Plan} {m m₁ : Machine} :
    Passes b q m m₁ → Passes b (transform t q) m m₁
  | nest {key : String} {q : Plan} {m m₁ : Machine} :
    Passes b q m m₁ → Passes b (nest key q) m m₁
  | target {names : List String} {q : Plan} {m m₁ : Machine} :
    Passes b q m m₁ → Passes b (target names q) m m₁
  | obj {q : Plan} {m m₁ : Machine} : Passes b q m m₁ → Passes b (obj q) m m₁
  | input {s q : Plan} {m m₁ : Machine} : Passes b q m m₁ → Passes b (apply s q) m m₁
  | subquery {s q : Plan} {m mq m₁ : Machine} : run b q m = .ok () mq →
    Passes b s mq.descend m₁ → Passes b (apply s q) m m₁

theorem run_resolved (hb : b.Regular) (p : Plan) : ∀ {m m' : Machine}, p.Regular →
    m.session.Regular → Sheltered b p m → run b p m = .ok () m' → m'.session.Resolved := by
  induction p using cursor_induction with
  | anew p hp =>
    intro m m' _ _ _ h
    obtain ⟨s, t, w, rfl⟩ := run_startsAnew hp h
    exact Session.resolved_reset s t
  | transform t q ih =>
    intro m m' hp hm hs h
    obtain ⟨mq, hq, h⟩ := run_transform.1 h
    exact Run.resolved_of_transform h (run_pointsApart hb q hp.2 hq hm) (ih hp.2 hm hs hq)
  | nest key q ih =>
    intro m m' hp hm hs h
    obtain ⟨mq, hq, rfl⟩ := run_nest.1 h
    intro p' hp'
    rw [pointsOf_nest] at hp'
    obtain ⟨p, hpq, rfl⟩ := List.mem_map.1 hp'
    exact ih hp hm hs hq p hpq
  | target names q ih =>
    intro m m' hp hm hs h
    obtain ⟨mq, hq, rfl⟩ := run_target.1 h
    have := ih hp hm hs hq
    exact this
  | apply s q ihs ihq =>
    intro m m' hp hm hs h
    obtain ⟨mq, hq, child, hc, rfl⟩ := run_apply.1 h
    obtain ⟨hs₁, hs₂⟩ := hs.2 mq hq
    have hr := (run_regular hb q hp.2 hq hm).tree
    exact (Machine.resolved_replant hr (ihq hp.2 hm hs.1 hq)
      (run_isMapping s hc (Tree.isMapping_anon _))
      (ihs hp.1 (Session.regular_within hr.leaves) hs₁ hc)).2 (hs₂ child hc)
  | assoc type q ih =>
    intro m m' hp hm _ h
    obtain ⟨mq, hq, h⟩ := run_assoc.1 h
    exact (Run.resolved_of_attach h (run_regular hb q hp hq hm).tree).2
  | assocHere type =>
    intro m m' _ hm _ h
    exact (Run.resolved_of_attach h hm.tree).2
  | obj q ih =>
    intro m m' hp hm hs h
    obtain ⟨mq, hq, h⟩ := run_obj.1 h
    exact Run.resolved_of_rewriteBranches h (run_pointsApart hb q hp hq hm) (ih hp hm hs hq)

theorem resolved_of_passes (hb : b.Regular) {p : Plan} {m m₁ : Machine} (h : Passes b p m m₁) :
    p.Regular → m.session.Regular → Sheltered b p m → m₁.session.Resolved := by
  induction h with
  | run h => intro hp hm hs; exact run_resolved hb _ hp hm hs h
  | transform _ ih => intro hp hm hs; exact ih hp.2 hm hs
  | nest _ ih => intro hp hm hs; exact ih hp hm hs
  | target _ ih => intro hp hm hs; exact ih hp hm hs
  | obj _ ih => intro hp hm hs; exact ih hp hm hs
  | input _ ih => intro hp hm hs; exact ih hp.2 hm hs.1
  | subquery hq _ ih =>
    intro hp hm hs
    exact ih hp.1 (Session.regular_within (run_regular hb _ hp.2 hq hm).tree.leaves) (hs.2 _ hq).1

theorem sheltered_of_passes (hb : b.Regular) (p : Plan) : ∀ {m : Machine}, p.Regular →
    m.session.Regular → (∀ m₁, Passes b p m m₁ → m₁.session.Resolved) → Sheltered b p m := by
  induction p using Plan.induction with
  | transform t q ih => intro m hp hm h; exact ih hp.2 hm fun m₁ hq => h m₁ (.transform hq)
  | nest key q ih => intro m hp hm h; exact ih hp hm fun m₁ hq => h m₁ (.nest hq)
  | target names q ih => intro m hp hm h; exact ih hp hm fun m₁ hq => h m₁ (.target hq)
  | obj q ih => intro m hp hm h; exact ih hp hm fun m₁ hq => h m₁ (.obj hq)
  | apply s q ihs ihq =>
    intro m hp hm h
    refine ⟨ihq hp.2 hm fun m₁ hq => h m₁ (.input hq), fun mq hq => ?_⟩
    have hr := (run_regular hb q hp.2 hq hm).tree
    have hd := Session.regular_within hr.leaves
    refine ⟨ihs hp.1 hd fun m₁ hs => h m₁ (.subquery hq hs), fun child hc => ?_⟩
    -- the input, the subquery and the run itself are all passed, and the three decide
    exact (Machine.resolved_replant hr (h mq (.input (.run hq)))
      (run_isMapping s hc (Tree.isMapping_anon _)) (h child (.subquery hq (.run hc)))).1
      (h _ (.run (run_apply.2 ⟨mq, hq, child, hc, rfl⟩)))
  | _ => intros; trivial

/--
**The points of a cursor that a run leaves lie apart, and they lead to items if every subquery
sheltered the points it found.**  This is what it takes for the run and all runs that its cursor
comes from to leave points that lead to items.
-/
theorem run_cursor (hb : b.Regular) {p : Plan} (hp : p.Regular) {scope : Option (List Item)}
    (hs : ∀ items ∈ scope, AllRegular items) {w : World} {m : Machine}
    (h : run b p ⟨.ofScope scope, w⟩ = .ok () m) :
    PointsApart m.session.cursor ∧
      (Sheltered b p ⟨.ofScope scope, w⟩ → m.session.Resolved) ∧
      (Sheltered b p ⟨.ofScope scope, w⟩ ↔
        ∀ m₁, Passes b p ⟨.ofScope scope, w⟩ m₁ → m₁.session.Resolved) := by
  have hm := Session.regular_ofScope hs
  refine ⟨run_pointsApart hb p hp h hm, fun hsh => run_resolved hb p hp hm hsh h, ?_⟩
  constructor
  · intro hsh m₁ hq
    exact resolved_of_passes hb hq hp hm hsh
  · exact sheltered_of_passes hb p hp hm

/-- The second of two items that have no friends, put back: it moves up, and its point with it. -/
theorem run_cursor_moved :
    let p : Plan := .apply (.literal [.int 2]) (.assoc "friend" (.literal [.int 1, .int 2]))
    Backend.silent.Regular ∧ p.Regular ∧ Sheltered .silent p ⟨.ofScope none, {}⟩ ∧
      ∃ m, run .silent p ⟨.ofScope none, {}⟩ = .ok () m ∧
        pointsOf m.session.cursor = [[.entry 0, .item 0]] ∧ m.session.Resolved := by
  intro p
  have hp : p.Regular := by
    refine ⟨?_, ?_⟩ <;> · show AllRegular _; decide
  have hs : Sheltered .silent p ⟨.ofScope none, {}⟩ := by
    refine ⟨trivial, fun mq hq => ⟨trivial, fun child hc => ?_⟩⟩
    cases hq
    cases hc
    intro _ q hq place result rest hm hr
    cases List.mem_singleton.1 hq
    cases List.mem_singleton.1 hm
    have hr' : ([.entry 0, .item 1] ++ rest : Path) ∈
        ([[.entry 0, .item 0], [.entry 0, .item 1]] : List Path) := hr
    obtain rfl : rest = [] := by simpa using hr'
    rfl
  have hc := @run_cursor .silent Backend.regular_silent p hp none (fun _ h => by cases h) {} _ rfl
  exact ⟨Backend.regular_silent, hp, hs, _, rfl, rfl, hc.2.1 hs⟩

/--
A point that leads nowhere.  The friends of the items 2 and 5 inside item 1 are attached, and item
2 is removed; the record around item 5 has no identifier, so item 1 is a leaf now, and it is
replaced by a record of the identifier 1 alone.
-/
theorem run_dangling :
    let p : Plan := .apply (.literal [.int 1]) (.apply (.literal [.int 5]) (.assoc "friend"
      (.json (.array [.object [(":id", .int 1), ("g", .array [.object [(":id", .int 2)],
        .object [("x", .array [.object [(":id", .int 5)]])]])]]))))
    Backend.silent.Regular ∧ p.Regular ∧
      ∃ m, run .silent p ⟨.ofScope none, {}⟩ = .ok () m ∧
        ∃ q ∈ pointsOf m.session.cursor, m.session.tree.itemAt? q = none := by
  intro p
  have hp : p.Regular := by
    refine ⟨?_, ?_, ?_⟩
    · show AllRegular _
      decide
    · show AllRegular _
      decide
    · show Tree.Regular _
      decide
  exact ⟨Backend.regular_silent, hp, _, rfl,
    [.entry 0, .item 0, .field "g", .item 0, .field "x", .item 0], List.mem_singleton.2 rfl, rfl⟩

end Plan

end GraphQuery
