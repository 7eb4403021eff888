import GraphQuery.Proofs.Execution.Entering
/-!
# Operators under a key

What works on the branches of a session, or on the leaves of its tree, does under a key what it does
without it: rewriting branches (`Rewrite.onBranches_nest`), looking up and attaching edges
(`Edges.lookup_under`, `Edges.commit_under`).  So an operator may be applied before or after nesting
(`Plan.run_stage_nest`).
-/

namespace GraphQuery

/-! ## One key deeper -/

namespace Tree

variable {key : Key} {t : Tree}

theorem leaves_under (key : Key) (t : Tree) :
    (map [(key, t)]).leaves = t.leaves.map (Leaf.under (.entry 0)) := by
  rw [leaves_map, indexedLeaves, indexedLeaves, List.append_nil]

theorem force_under (key : Key) (t : Tree) : (map [(key, t)]).force = map [(key, t.force)] :=
  force_map [(key, t)]

theorem itemAt?_under (p : Path) : (map [(key, t)]).itemAt? (.entry 0 :: p) = t.itemAt? p := rfl

theorem changeItem_under (f : Item → Item) (p : Path) :
    (map [(key, t)]).changeItem f (.entry 0 :: p) = map [(key, t.changeItem f p)] := rfl

theorem traverse_under {σ : Type} (f : Seq Item → σ → Seq Item × σ) (st : σ) :
    (map [(key, t)]).traverse f st = (map [(key, (t.traverse f st).1)], (t.traverse f st).2) := rfl

end Tree

namespace Rewrite

variable (f : Rewrite) {field : String} {key : Key}

theorem onPoints_under : ∀ (points : List Path) (t : Tree) (a : Attempt),
    f.onPoints field (points.map (.entry 0 :: ·)) (.map [(key, t)]) a =
      (.map [(key, (f.onPoints field points t a).1)], (f.onPoints field points t a).2)
  | [], _, _ => rfl
  | p :: rest, t, a => by
    rw [List.map_cons, onPoints, onPoints, Tree.itemAt?_under]
    cases a.failure with
    | some e => rfl
    | none =>
      cases t.itemAt? p with
      | none => exact onPoints_under rest _ a
      | some item => exact onPoints_under rest _ _

theorem onBranches_nest (key : String) (s : Session) (a : Attempt) :
    f.onBranches (s.nest key) a =
      (.map [(.name key, (f.onBranches s a).1)], (f.onBranches s a).2) := by
  unfold onBranches Session.nest
  cases s.cursor with
  | none => exact Tree.traverse_under f.onSeq a
  | some c => exact f.onPoints_under c.points s.tree a

end Rewrite

namespace Edges

variable {b : Backend} {type : String} {key : Key}

def Found.under (step : Step) (f : Found) : Found := ⟨step :: f.path, f.edges⟩

theorem lookup_under (step : Step) : ∀ (leaves : List Leaf) (w : World),
    lookup b type (leaves.map (Leaf.under step)) w =
      ⟨(lookup b type leaves w).found.map (Found.under step),
        (lookup b type leaves w).failure, (lookup b type leaves w).world⟩
  | [], _ => rfl
  | leaf :: rest, w => by
    have hi : (leaf.under step).item = leaf.item := rfl
    rw [List.map_cons, lookup, lookup, hi]
    cases leaf.item.id? with
    | none => exact lookup_under step rest w
    | some id =>
      dsimp only
      rcases b.askEdges type id w with ⟨_ | edges, v⟩
      · rfl
      · dsimp only
        rw [lookup_under step rest v]
        rfl

theorem commit_under : ∀ (found : List Found) (t : Tree),
    commit type (found.map (Found.under (.entry 0))) (.map [(key, t)]) =
      ((commit type found t).1.map (.entry 0 :: ·), .map [(key, (commit type found t).2)])
  | [], _ => rfl
  | f :: rest, t => by
    have hc : (Tree.map [(key, t)]).changeItem (attachTo type (f.under (.entry 0)).edges)
        (f.under (.entry 0)).path = .map [(key, t.changeItem (attachTo type f.edges) f.path)] :=
      Tree.changeItem_under _ _
    have hi : (Tree.map [(key, t)]).itemAt? (f.under (.entry 0)).path = t.itemAt? f.path :=
      Tree.itemAt?_under _
    rw [List.map_cons, commit, commit, hc, hi, commit_under rest]
    dsimp only
    split <;> rfl

end Edges

/-! ## Steps under a key -/

def Machine.nest (key : String) (m : Machine) : Machine := ⟨m.session.nest key, m.world⟩

namespace Run

def Transparent (step : Run Unit) : Prop := ∀ key m m',
  step (m.nest key) = .ok () m' ↔ ∃ after, step m = .ok () after ∧ m' = after.nest key

theorem transparent_rewriteBranches (f : Rewrite) : Transparent (rewriteBranches f) := by
  intro key m m'
  have hn := f.onBranches_nest key m.session { world := m.world }
  simp only [rewriteBranches_eq_ok]
  show (∃ t w, f.onBranches (m.session.nest key) { world := m.world } = _ ∧ _) ↔ _
  rw [hn]
  obtain ⟨u, w, failure⟩ := f.onBranches m.session { world := m.world }
  constructor
  · rintro ⟨_, _, ⟨⟩, rfl⟩
    exact ⟨_, ⟨u, w, rfl, rfl⟩, rfl⟩
  · rintro ⟨_, ⟨_, _, ⟨⟩, rfl⟩, rfl⟩
    exact ⟨_, w, rfl, rfl⟩

theorem transparent_transform (t : Transform) : Transparent (transform t) := by
  intro key m m'
  rw [transform_apply, transform_apply]
  cases hc : m.session.cursor with
  | some c =>
    have hn : (m.nest key).session.cursor = some ⟨c.points.map (.entry 0 :: ·), c.key⟩ := by
      show m.session.cursor.map _ = _
      rw [hc]
      rfl
    rw [hn]
    exact transparent_rewriteBranches _ key m m'
  | none =>
    have hn : (m.nest key).session.cursor = none := by
      show m.session.cursor.map _ = _
      rw [hc]
      rfl
    rw [hn]
    constructor
    · rintro ⟨⟩
      exact ⟨_, rfl, rfl⟩
    · rintro ⟨_, ⟨⟩, rfl⟩
      rfl

theorem transparent_attach (b : Backend) (type : String) : Transparent (attach b type) := by
  intro key m m'
  simp only [attach_eq_ok]
  show (∃ found w, Edges.lookup b type (Tree.map [(.name key, m.session.tree)]).leaves m.world = _ ∧
    m' = ⟨{ m.session.nest key with
      tree := (Edges.commit type found (Tree.map [(.name key, m.session.tree)]).force).2
      cursor := some ⟨(Edges.commit type found
        (Tree.map [(.name key, m.session.tree)]).force).1, type⟩ }, w⟩) ↔ _
  -- the backend is asked about the items of the leaves, which nesting does not change
  rw [Tree.leaves_under, Tree.force_under, Edges.lookup_under]
  obtain ⟨found, failure, w⟩ := Edges.lookup b type m.session.tree.leaves m.world
  constructor
  · rintro ⟨_, _, ⟨⟩, rfl⟩
    refine ⟨_, ⟨found, w, rfl, rfl⟩, ?_⟩
    rw [Edges.commit_under]
    rfl
  · rintro ⟨_, ⟨_, _, ⟨⟩, rfl⟩, rfl⟩
    refine ⟨_, w, rfl, ?_⟩
    rw [Edges.commit_under]
    rfl

end Run

/-! ## Operators -/

/-- An operator that works on what its one input leaves. -/
inductive Stage where
  | transform (t : Transform)
  | resolve
  | attach (type : String)

namespace Stage

def after (q : Plan) : Stage → Plan
  | transform t => .transform t q
  | resolve => .obj q
  | attach type => .assoc type q

def step (b : Backend) : Stage → Run Unit
  | transform t => Run.transform t
  | resolve => Run.rewriteBranches (Objects.branch b)
  | attach type => Run.attach b type

theorem transparent_step (b : Backend) : ∀ s : Stage, Run.Transparent (s.step b)
  | transform t => Run.transparent_transform t
  | resolve => Run.transparent_rewriteBranches _
  | attach type => Run.transparent_attach b type

end Stage

namespace Plan

variable {b : Backend} {m m' : Machine}

theorem run_stage {q : Plan} : ∀ {s : Stage}, run b (s.after q) m = .ok () m' ↔
    ∃ mq, run b q m = .ok () mq ∧ s.step b mq = .ok () m'
  | .transform _ => run_transform
  | .resolve => run_obj
  | .attach _ => run_assoc

/--
**Nesting is transparent to the operators that work on branches and leaves**: before and after
nesting they succeed alike, with the same tree, the same cursor and the same calls.
-/
theorem run_stage_nest (b : Backend) (key : String) (s : Stage) (q : Plan) (m m' : Machine) :
    run b (s.after (.nest key q)) m = .ok () m' ↔ run b (.nest key (s.after q)) m = .ok () m' := by
  simp only [run_stage, run_nest]
  constructor
  · rintro ⟨_, ⟨mq, hq, rfl⟩, h⟩
    obtain ⟨after, hs, rfl⟩ := (s.transparent_step b key mq m').1 h
    exact ⟨after, ⟨mq, hq, hs⟩, rfl⟩
  · rintro ⟨after, ⟨mq, hq, hs⟩, rfl⟩
    exact ⟨_, ⟨mq, hq, rfl⟩, (s.transparent_step b key mq _).2 ⟨after, hs, rfl⟩⟩

end Plan

end GraphQuery
