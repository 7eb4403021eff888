import GraphQuery.Proofs.Execution.MultiHop
/-!
# Runs that the world has no part in

A plan that draws no random words, run against a backend that answers by the arguments of a call,
comes to the same in every world: what it answers or fails with, and the session it leaves, depend
on the session it starts with alone (`Plan.steady_run`).  So such runs can be put together by their
outcomes, whatever was called before (`Run.outcome_bind`).
-/

namespace GraphQuery

/-! ## Steps -/

namespace Run

variable {α β : Type}

def outcome (r : EStateM.Result QueryError Machine α) : Except QueryError α × Session :=
  match r with
  | .ok a m => (.ok a, m.session)
  | .error e m => (.error e, m.session)

def Steady (x : Run α) : Prop := ∀ s w w', outcome (x ⟨s, w⟩) = outcome (x ⟨s, w'⟩)

theorem outcome_bind {x : Run α} {f : α → Run β} {m : Machine} (hf : ∀ a, Steady (f a)) :
    outcome ((x >>= f) m) = match outcome (x m) with
      | (.ok a, s) => outcome (f a ⟨s, m.world⟩)
      | (.error e, s) => (.error e, s) := by
  rw [bind_apply]
  cases x m with
  | ok a m' => exact hf a _ _ _
  | error e m' => rfl

theorem steady_pure (a : α) : Steady (pure a : Run α) := fun _ _ _ => rfl

theorem steady_throw (e : QueryError) : Steady (throw e : Run α) := fun _ _ _ => rfl

theorem steady_update (f : Session → Session) : Steady (update f) := fun _ _ _ => rfl

theorem steady_ofExcept (x : Except MergeConflict α) : Steady (ofExcept x) := by
  cases x with
  | ok a => exact steady_pure a
  | error c => exact steady_throw _

theorem steady_bind {x : Run α} {f : α → Run β} (hx : Steady x) (hf : ∀ a, Steady (f a)) :
    Steady (x >>= f) := by
  intro s w w'
  rw [outcome_bind hf, outcome_bind hf, hx s w w']
  cases outcome (x ⟨s, w'⟩) with
  | mk r s' =>
    cases r with
    | ok a => exact hf a _ _ _
    | error e => rfl

theorem steady_then {x : Run Unit} {y : Run β} (hx : Steady x) (hy : Steady y) :
    Steady (do x; y) := steady_bind hx fun _ => hy

theorem outcome_operand (step : Run Unit) (m : Machine) :
    outcome (operand step m) =
      ((outcome (step ⟨.ofScope m.session.scope, m.world⟩)).1.map fun _ =>
        (outcome (step ⟨.ofScope m.session.scope, m.world⟩)).2.tree, m.session) := by
  unfold operand
  rw [bind_apply, get_apply]
  simp only [bind_apply, inChild]
  cases step ⟨.ofScope m.session.scope, m.world⟩ <;> rfl

theorem steady_operand {step : Run Unit} (h : Steady step) : Steady (operand step) := by
  intro s w w'
  rw [outcome_operand, outcome_operand]
  dsimp only
  rw [h _ w w']

theorem outcome_applySubquery (step : Run Unit) (m : Machine) :
    outcome (applySubquery step m) = match outcome (step m.descend) with
      | (.ok _, child) => (.ok (), (m.replant ⟨child, m.world⟩).session)
      | (.error e, child) => (.error e, (m.abandon ⟨child, m.world⟩).session) := by
  rw [applySubquery_apply]
  cases step m.descend <;> rfl

theorem steady_applySubquery {step : Run Unit} (h : Steady step) :
    Steady (applySubquery step) := by
  intro s w w'
  rw [outcome_applySubquery, outcome_applySubquery,
    show outcome (step (Machine.mk s w).descend) = outcome (step (Machine.mk s w').descend) from
      h _ w w']
  rfl

end Run

/-! ## Rewriting -/

namespace Tree

variable {σ : Type} {f : Seq Item → σ → Seq Item × σ} {R : σ → σ → Prop}

mutual

theorem traverse_agree
    (hf : ∀ s a a', R a a' → (f s a).1 = (f s a').1 ∧ R (f s a).2 (f s a').2) :
    ∀ (t : Tree) (a a' : σ), R a a' →
      (t.traverse f a).1 = (t.traverse f a').1 ∧ R (t.traverse f a).2 (t.traverse f a').2
  | seq s, a, a', h => ⟨congrArg seq (hf s a a' h).1, (hf s a a' h).2⟩
  | map entries, a, a', h =>
    have he := traverseEntries_agree hf entries a a' h
    ⟨congrArg map he.1, he.2⟩

theorem traverseEntries_agree
    (hf : ∀ s a a', R a a' → (f s a).1 = (f s a').1 ∧ R (f s a).2 (f s a').2) :
    ∀ (entries : List (Key × Tree)) (a a' : σ), R a a' →
      (traverseEntries f entries a).1 = (traverseEntries f entries a').1 ∧
        R (traverseEntries f entries a).2 (traverseEntries f entries a').2
  | [], _, _, h => ⟨rfl, h⟩
  | (key, t) :: rest, a, a', h => by
    obtain ⟨ht, hr⟩ := traverse_agree hf t a a' h
    obtain ⟨hrest, hr'⟩ := traverseEntries_agree hf rest _ _ hr
    refine ⟨?_, hr'⟩
    simp only [traverseEntries]
    rw [ht, hrest]

end

end Tree

namespace Rewrite

variable {f : Rewrite}

def Steady (f : Rewrite) : Prop := ∀ items w w', (f items w).1 = (f items w').1

theorem onSeq_agree (hf : f.Steady) (s : Seq Item) (a a' : Attempt) (h : a.failure = a'.failure) :
    (f.onSeq s a).1 = (f.onSeq s a').1 ∧ (f.onSeq s a).2.failure = (f.onSeq s a').2.failure := by
  have hs := hf s.toList a.world a'.world
  unfold onSeq
  rw [h]
  cases a'.failure with
  | some e => exact ⟨rfl, h⟩
  | none =>
    dsimp only
    generalize f s.toList a.world = x at hs ⊢
    generalize f s.toList a'.world = y at hs ⊢
    obtain ⟨r, w⟩ := x
    obtain ⟨_, w'⟩ := y
    cases hs
    cases r <;> exact ⟨rfl, rfl⟩

theorem onField_agree (hf : f.Steady) (key : String) (item : Item) (a a' : Attempt)
    (h : a.failure = a'.failure) : (f.onField key item a).1 = (f.onField key item a').1 ∧
      (f.onField key item a).2.failure = (f.onField key item a').2.failure := by
  unfold onField
  cases item.writable? key with
  | none => exact ⟨rfl, h⟩
  | some v =>
    have hs := hf (itemsOf v) a.world a'.world
    dsimp only
    generalize f (itemsOf v) a.world = x at hs ⊢
    generalize f (itemsOf v) a'.world = y at hs ⊢
    obtain ⟨r, w⟩ := x
    obtain ⟨_, w'⟩ := y
    cases hs
    cases r <;> exact ⟨rfl, rfl⟩

theorem onPoints_agree (hf : f.Steady) (key : String) : ∀ (points : List Path) (t : Tree)
    (a a' : Attempt), a.failure = a'.failure →
      (f.onPoints key points t a).1 = (f.onPoints key points t a').1 ∧
        (f.onPoints key points t a).2.failure = (f.onPoints key points t a').2.failure
  | [], _, _, _, h => ⟨rfl, h⟩
  | p :: rest, t, a, a', h => by
    -- whether it has failed is all that the points to come see of an attempt
    rw [onPoints, onPoints, h]
    cases a'.failure with
    | some e => exact ⟨rfl, h⟩
    | none =>
      cases t.itemAt? p with
      | none => exact onPoints_agree hf key rest _ a a' h
      | some item =>
        obtain ⟨hi, hr⟩ := onField_agree hf key item a a' h
        dsimp only
        rw [hi]
        exact onPoints_agree hf key rest _ _ _ hr

theorem onBranches_agree (hf : f.Steady) (s : Session) (a a' : Attempt)
    (h : a.failure = a'.failure) : (f.onBranches s a).1 = (f.onBranches s a').1 ∧
      (f.onBranches s a).2.failure = (f.onBranches s a').2.failure := by
  unfold onBranches
  cases s.cursor with
  | none => exact Tree.traverse_agree (onSeq_agree hf) s.tree a a' h
  | some c => exact onPoints_agree hf c.key c.points s.tree a a' h

end Rewrite

theorem Transform.run_of_not_draws {t : Transform} (h : t.draws = false) (f : Flow Item)
    (w : Words) : t.run f w = (t.rewrite f, w) := by
  cases t <;> first | rfl | cases h

namespace Run

theorem steady_rewriteBranches {f : Rewrite} (hf : f.Steady) : Steady (rewriteBranches f) := by
  intro s w w'
  obtain ⟨ht, hr⟩ := Rewrite.onBranches_agree hf s { world := w } { world := w' } rfl
  unfold rewriteBranches
  dsimp only
  generalize f.onBranches s { world := w } = x at ht hr ⊢
  generalize f.onBranches s { world := w' } = y at ht hr ⊢
  obtain ⟨t, v, r⟩ := x
  obtain ⟨_, v', _⟩ := y
  cases ht
  cases hr
  cases r <;> rfl

theorem steady_transform {t : Transform} (h : t.draws = false) : Steady (transform t) := by
  intro s w w'
  rw [transform_apply, transform_apply]
  cases s.cursor with
  | some c =>
    refine steady_rewriteBranches (fun items v v' => ?_) s w w'
    simp only [transformItems, Transform.run_of_not_draws h]
  | none =>
    have hs := (Tree.traverse_agree (f := transformSeq t) (R := fun _ _ => True)
      (fun q v v' _ => by simp [transformSeq, Transform.run_of_not_draws h]) s.tree w.words w'.words
      trivial).1
    show (Except.ok (), { s with tree := (s.tree.traverse (transformSeq t) w.words).1 }) = _
    rw [hs]
    rfl

end Run

/-! ## Calls -/

section

variable {objects : List Value → Except BackendError (List Item)}
  {edges : String → Value → Except BackendError (List Item)}

theorem Edges.lookup_agree (type : String) : ∀ (leaves : List Leaf) (w w' : World),
    (lookup (.ofFunctions objects edges) type leaves w).found =
        (lookup (.ofFunctions objects edges) type leaves w').found ∧
      (lookup (.ofFunctions objects edges) type leaves w).failure =
        (lookup (.ofFunctions objects edges) type leaves w').failure
  | [], _, _ => ⟨rfl, rfl⟩
  | leaf :: rest, w, w' => by
    rw [lookup, lookup]
    cases leaf.item.id? with
    | none => exact lookup_agree type rest w w'
    | some id =>
      dsimp only
      rw [Backend.askEdges_ofFunctions, Backend.askEdges_ofFunctions]
      cases edges type id with
      | error e => exact ⟨rfl, rfl⟩
      | ok found =>
        obtain ⟨hf, he⟩ := lookup_agree type rest (Backend.record w (.edges type id))
          (Backend.record w' (.edges type id))
        exact ⟨congrArg (⟨leaf.path, found⟩ :: ·) hf, he⟩

theorem Run.steady_attach (type : String) :
    Steady (attach (.ofFunctions objects edges) type) := by
  intro s w w'
  obtain ⟨hf, he⟩ := @Edges.lookup_agree objects edges type s.tree.force.leaves w w'
  unfold attach
  dsimp only
  generalize Edges.lookup (.ofFunctions objects edges) type s.tree.force.leaves w = x at hf he ⊢
  generalize Edges.lookup (.ofFunctions objects edges) type s.tree.force.leaves w' = y at hf he ⊢
  obtain ⟨found, failure, v⟩ := x
  obtain ⟨_, _, v'⟩ := y
  cases hf
  cases he
  cases failure <;> rfl

theorem Objects.steady_branch : (branch (.ofFunctions objects edges)).Steady := by
  intro items w w'
  unfold branch
  cases items.filterMap Record.id? with
  | nil => rfl
  | cons id ids =>
    dsimp only
    rw [Backend.askObjects_ofFunctions, Backend.askObjects_ofFunctions]

end

/-! ## Plans -/

namespace Plan

mutual

def isDrawless : Plan → Bool
  | literal _ | json _ | assocHere _ => true
  | transform t q => !t.draws && q.isDrawless
  | combine _ operands => allDrawless operands
  | difference l r => l.isDrawless && r.isDrawless
  | apply s q => s.isDrawless && q.isDrawless
  | aggregate q | nest _ q | target _ q | assoc _ q | obj q | exist q => q.isDrawless
termination_by structural p => p

def allDrawless : List Plan → Bool
  | [] => true
  | p :: rest => p.isDrawless && allDrawless rest
termination_by structural ps => ps

end

theorem allDrawless_iff : ∀ {ps : List Plan},
    allDrawless ps = true ↔ ∀ p ∈ ps, p.isDrawless = true
  | [] => by simp [allDrawless]
  | p :: rest => by
    rw [allDrawless, Bool.and_eq_true, allDrawless_iff, List.forall_mem_cons]

variable {b : Backend}

theorem steady_runAll : ∀ {ps : List Plan}, (∀ p ∈ ps, Run.Steady (run b p)) →
    Run.Steady (runAll b ps)
  | [], _ => Run.steady_pure []
  | p :: _, h =>
    Run.steady_bind (Run.steady_operand (h p List.mem_cons_self)) fun _ =>
      Run.steady_bind (steady_runAll fun q hq => h q (List.mem_cons_of_mem p hq)) fun _ =>
        Run.steady_pure _

theorem steady_runMerge : ∀ {ps : List Plan} {merged : Option Tree},
    (∀ p ∈ ps, Run.Steady (run b p)) → Run.Steady (runMerge b merged ps)
  | [], merged, _ => Run.steady_pure merged
  | p :: ps, merged, h => by
    have hrest : ∀ merged, Run.Steady (runMerge b merged ps) :=
      fun _ => steady_runMerge fun q hq => h q (List.mem_cons_of_mem p hq)
    refine Run.steady_bind (Run.steady_operand (h p List.mem_cons_self)) fun t => ?_
    cases merged with
    | none => exact hrest _
    | some m => exact Run.steady_bind (Run.steady_ofExcept _) fun _ => hrest _

variable (objects : List Value → Except BackendError (List Item))
  (edges : String → Value → Except BackendError (List Item))

/-- **A run without random words comes to the same in every world.** -/
theorem steady_run (p : Plan) (hp : p.isDrawless = true) :
    Run.Steady (run (.ofFunctions objects edges) p) := by
  induction p using Plan.induction with
  | literal values => exact Run.steady_update _
  | json document => exact Run.steady_update _
  | transform t q ih =>
    simp only [isDrawless, Bool.and_eq_true, Bool.not_eq_true'] at hp
    exact Run.steady_then (ih hp.2) (Run.steady_transform hp.1)
  | aggregate q ih => exact Run.steady_then (ih hp) (Run.steady_update _)
  | combine how operands ih =>
    have hall : ∀ p ∈ operands, Run.Steady (run (.ofFunctions objects edges) p) :=
      fun p hm => ih p hm (allDrawless_iff.1 hp p hm)
    cases how with
    | join => exact Run.steady_throw _
    | merge => exact Run.steady_bind (steady_runMerge hall) fun _ => Run.steady_update _
    | and => exact Run.steady_bind (steady_runAll hall) fun _ => Run.steady_update _
    | or => exact Run.steady_bind (steady_runAll hall) fun _ => Run.steady_update _
    | indexOr => exact Run.steady_bind (steady_runAll hall) fun _ => Run.steady_update _
  | difference l r ihl ihr =>
    rw [isDrawless, Bool.and_eq_true] at hp
    exact Run.steady_bind (Run.steady_operand (ihl hp.1)) fun _ =>
      Run.steady_bind (Run.steady_operand (ihr hp.2)) fun _ => Run.steady_update _
  | nest key q ih => exact Run.steady_then (ih hp) (Run.steady_update _)
  | target names q ih => exact Run.steady_then (ih hp) (Run.steady_update _)
  | apply s q ihs ihq =>
    rw [isDrawless, Bool.and_eq_true] at hp
    exact Run.steady_then (ihq hp.2) (Run.steady_applySubquery (ihs hp.1))
  | assoc type q ih => exact Run.steady_then (ih hp) (Run.steady_attach type)
  | assocHere type => exact Run.steady_attach type
  | obj q ih => exact Run.steady_then (ih hp) (Run.steady_rewriteBranches Objects.steady_branch)
  | exist q ih =>
    exact Run.steady_bind (Run.steady_operand (ih hp)) fun _ => Run.steady_update _

end Plan

end GraphQuery
