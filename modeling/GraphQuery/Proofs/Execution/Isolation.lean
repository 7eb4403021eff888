import GraphQuery.Proofs.Execution.Steps
/-!
# Failures of operands and subqueries

Operands and subqueries run in sessions of their own.  When one of them fails, at whatever depth and
after whatever it had done to its own tree, the session at hand is what it was before
(`Plan.run_failed_isolated`); the calls made and the random words drawn are not taken back.  A step
spares the session at hand if neither its success nor its failure changes it (`Run.Spares`), and
steps that spare it compose.
-/

namespace GraphQuery

namespace Run

variable {α β : Type}

/-- Whether a step leaves the session at hand as it was, both when it succeeds and when it fails. -/
structure Spares (x : Run α) : Prop where
  ok : ∀ {m m' : Machine} {a : α}, x m = .ok a m' → m'.session = m.session
  error : ∀ {m m' : Machine} {e : QueryError}, x m = .error e m' → m'.session = m.session

theorem spares_pure (a : α) : Spares (pure a : Run α) where
  ok h := by
    cases h
    rfl
  error h := by cases h

theorem spares_ofExcept (x : Except MergeConflict α) : Spares (ofExcept x) := by
  cases x with
  | ok a => exact spares_pure a
  | error c =>
    refine ⟨fun h => ?_, fun h => ?_⟩
    · cases h
    · cases h
      rfl

theorem Spares.bind {x : Run α} {f : α → Run β} (hx : Spares x) (hf : ∀ a, Spares (f a)) :
    Spares (x >>= f) where
  ok h := by
    obtain ⟨a, m₁, hfirst, hrest⟩ := bind_eq_ok.1 h
    exact ((hf a).ok hrest).trans (hx.ok hfirst)
  error h := by
    rcases bind_eq_error.1 h with hfirst | ⟨a, m₁, hfirst, hrest⟩
    · exact hx.error hfirst
    · exact ((hf a).error hrest).trans (hx.ok hfirst)

/-- **An operand spares the session at hand, whatever it does in its own.** -/
theorem spares_operand (step : Run Unit) : Spares (operand step) where
  ok h := by
    obtain ⟨after, -, -, rfl⟩ := operand_eq_ok.1 h
    rfl
  error h := by
    obtain ⟨after, -, rfl⟩ := operand_eq_error.1 h
    rfl

theorem bind_update_eq_error {x : Run α} {f : α → Session → Session} {m m' : Machine}
    {e : QueryError} :
    (do let a ← x; update (f a)) m = .error e m' ↔ x m = .error e m' := by
  rw [bind_eq_error]
  constructor
  · rintro (hx | ⟨a, m₁, -, hchange⟩)
    · exact hx
    · cases hchange
  · exact .inl

theorem applySubquery_eq_error {step : Run Unit} {m m' : Machine} {e : QueryError} :
    applySubquery step m = .error e m' ↔
      ∃ child, step m.descend = .error e child ∧ m' = m.abandon child := by
  rw [applySubquery_apply]
  cases step m.descend with
  | ok a child => simp
  | error e' child =>
    constructor
    · rintro ⟨⟩
      exact ⟨child, rfl, rfl⟩
    · rintro ⟨_, ⟨⟩, rfl⟩
      rfl

end Run

namespace Plan

open Run

variable {b : Backend}

/-- Whether a plan runs all its inputs in sessions of their own. -/
def runsApart : Plan → Bool
  | combine _ _ | difference _ _ | exist _ => true
  | _ => false

/-- The plans that a plan runs in sessions of their own, but for a subquery. -/
def operands : Plan → List Plan
  | combine _ ps => ps
  | difference l r => [l, r]
  | exist q => [q]
  | _ => []

def FailsAmong (b : Backend) (scope : Option (List Item)) (ps : List Plan) (e : QueryError) :
    Prop := ∃ p ∈ ps, ∃ w after, run b p ⟨.ofScope scope, w⟩ = .error e after

inductive Cause (b : Backend) (scope : Option (List Item)) : Plan → QueryError → Prop
  | operand {p : Plan} {e : QueryError} (h : FailsAmong b scope p.operands e) : Cause b scope p e
  | merging {ps : List Plan} {t u : Tree} {c : MergeConflict} (h : t.merge u = .error c) :
      Cause b scope (.combine .merge ps) (.conflict c)
  | join {ps : List Plan} : Cause b scope (.combine .join ps) (.unsupported "join")

/-! ## The session at hand -/

theorem spares_runAll : ∀ ps : List Plan, Spares (runAll b ps)
  | [] => spares_pure []
  | p :: rest => (spares_operand (run b p)).bind fun t =>
    (spares_runAll rest).bind fun ts => spares_pure (t :: ts)

theorem spares_runMerge : ∀ (ps : List Plan) (merged : Option Tree),
    Spares (runMerge b merged ps)
  | [], merged => spares_pure merged
  | p :: rest, merged => (spares_operand (run b p)).bind fun t => by
    cases merged with
    | none => exact (spares_pure t).bind fun t => spares_runMerge rest (some t)
    | some u => exact (spares_ofExcept (u.merge t)).bind fun t => spares_runMerge rest (some t)

/-! ## The cause -/

theorem failsAmong_of_operand {p : Plan} {ps : List Plan} {m m' : Machine} {e : QueryError}
    (hp : p ∈ ps) (h : Run.operand (run b p) m = .error e m') :
    FailsAmong b m.session.scope ps e := by
  obtain ⟨after, hrun, -⟩ := operand_eq_error.1 h
  exact ⟨p, hp, m.world, after, hrun⟩

theorem FailsAmong.cons {p : Plan} {ps : List Plan} {scope : Option (List Item)} {e : QueryError}
    (h : FailsAmong b scope ps e) : FailsAmong b scope (p :: ps) e := by
  obtain ⟨q, hq, hrun⟩ := h
  exact ⟨q, List.mem_cons_of_mem p hq, hrun⟩

theorem failsAmong_of_runAll : ∀ {ps : List Plan} {m m' : Machine} {e : QueryError},
    runAll b ps m = .error e m' → FailsAmong b m.session.scope ps e
  | [], _, _, _, h => by cases h
  | p :: rest, m, m', e, h => by
    rcases bind_eq_error.1 h with hp | ⟨t, m₁, hp, h⟩
    · exact failsAmong_of_operand List.mem_cons_self hp
    rcases bind_eq_error.1 h with hrest | ⟨ts, m₂, -, hpure⟩
    · rw [← (spares_operand (run b p)).ok hp]
      exact (failsAmong_of_runAll hrest).cons
    · cases hpure

theorem failsAmong_of_runMerge : ∀ {ps : List Plan} {merged : Option Tree} {m m' : Machine}
    {e : QueryError}, runMerge b merged ps m = .error e m' →
      FailsAmong b m.session.scope ps e ∨ ∃ t u c, Tree.merge t u = .error c ∧ e = .conflict c
  | [], _, _, _, _, h => by cases h
  | p :: rest, merged, m, m', e, h => by
    rcases bind_eq_error.1 h with hp | ⟨t, m₁, hp, h⟩
    · exact .inl (failsAmong_of_operand List.mem_cons_self hp)
    have hrest : ∀ {u : Tree}, runMerge b (some u) rest m₁ = .error e m' →
        FailsAmong b m.session.scope (p :: rest) e ∨
          ∃ t u c, Tree.merge t u = .error c ∧ e = .conflict c := fun hr => by
      rw [← (spares_operand (run b p)).ok hp]
      exact (failsAmong_of_runMerge hr).imp_left FailsAmong.cons
    cases merged with
    | none => exact hrest h
    | some u =>
      cases hmerge : u.merge t with
      | error c =>
        simp only [hmerge, Run.ofExcept] at h
        cases h
        exact .inr ⟨u, t, c, hmerge, rfl⟩
      | ok v =>
        simp only [hmerge, Run.ofExcept] at h
        exact hrest h

/--
**A plan that runs its inputs apart leaves the session at hand as it was when it fails**, and it
fails because an operand does, because two trees cannot be merged, or because there is no join.
-/
theorem runsApart_failed {p : Plan} (hp : p.runsApart = true) {m m' : Machine} {e : QueryError}
    (h : run b p m = .error e m') : m'.session = m.session ∧ Cause b m.session.scope p e := by
  cases p with
  | combine how ps =>
    have hset : runAll b ps m = .error e m' →
        m'.session = m.session ∧ Cause b m.session.scope (.combine how ps) e := fun hr =>
      ⟨(spares_runAll ps).error hr, .operand (failsAmong_of_runAll hr)⟩
    cases how with
    | and => exact hset (bind_update_eq_error.1 h)
    | or => exact hset (bind_update_eq_error.1 h)
    | indexOr => exact hset (bind_update_eq_error.1 h)
    | merge =>
      have hr := bind_update_eq_error.1 h
      refine ⟨(spares_runMerge ps none).error hr, ?_⟩
      rcases failsAmong_of_runMerge hr with hfails | ⟨t, u, c, hmerge, rfl⟩
      · exact .operand hfails
      · exact .merging hmerge
    | join =>
      cases h
      exact ⟨rfl, .join⟩
  | difference left right =>
    -- the right operand runs after the left one, and only then the session changes
    rcases bind_eq_error.1 h with hl | ⟨l, m₁, hl, hr⟩
    · exact ⟨(spares_operand _).error hl, .operand (failsAmong_of_operand List.mem_cons_self hl)⟩
    · have hright := bind_update_eq_error.1 hr
      have hsame := (spares_operand (run b left)).ok hl
      have hfails : FailsAmong b m₁.session.scope [left, right] e :=
        (failsAmong_of_operand (List.mem_singleton_self right) hright).cons
      rw [hsame] at hfails
      exact ⟨((spares_operand _).error hright).trans hsame, .operand hfails⟩
  | exist q =>
    have hr := bind_update_eq_error.1 h
    exact ⟨(spares_operand _).error hr,
      .operand (failsAmong_of_operand (List.mem_singleton_self q) hr)⟩
  | _ => cases hp

/-! ## Applications -/

theorem run_apply_eq_error {s q : Plan} {m mq m' : Machine} {e : QueryError}
    (hq : run b q m = .ok () mq) : run b (.apply s q) m = .error e m' ↔
      ∃ child, run b s mq.descend = .error e child ∧ m' = mq.abandon child := by
  show (do run b q; applySubquery (run b s)) m = .error e m' ↔ _
  rw [bind_apply, hq]
  exact applySubquery_eq_error

/--
**When a combination, a difference or an existence test fails, in an operand or in merging, the
session is exactly what it was before.  When the subquery of an application fails, the application
fails as it did, and the session is what its input has left**, with the tree buffered.
-/
theorem run_failed_isolated :
    (∀ (p : Plan) (m m' : Machine) (e : QueryError), p.runsApart = true →
      run b p m = .error e m' → m'.session = m.session ∧ Cause b m.session.scope p e) ∧
    ∀ (s q : Plan) (m mq child : Machine) (e : QueryError), run b q m = .ok () mq →
      run b s mq.descend = .error e child → ∃ m', run b (.apply s q) m = .error e m' ∧
        m'.session.tree.force = mq.session.tree.force ∧
        m'.session = { mq.session with tree := mq.session.tree.force } ∧
        m'.world = child.world := by
  refine ⟨fun p m m' e hp h => runsApart_failed hp h, ?_⟩
  intro s q m mq child e hq hs
  have happly := (run_apply_eq_error hq).2 ⟨child, hs, rfl⟩
  have hforce : (mq.abandon child).session.tree.force = mq.session.tree.force :=
    Tree.force_force mq.session.tree
  exact ⟨mq.abandon child, happly, hforce, rfl, rfl⟩

/-- A subquery fails inside an operand, and one on its own, each with a target and a friend set. -/
theorem run_failed_isolated_friends :
    let b : Backend := .failing [⟨"friend", .int 2⟩]
      (.ofFunctions (fun _ => .ok []) fun _ _ => .ok [.ofId (.int 7)])
    let m : Machine := ⟨{
      tree := .ofItems [.ofId (.int 9)]
      cursor := some ⟨[[.entry 0, .item 0]], "pet"⟩
      scope := some [.ofId (.int 1), .ofId (.int 2)]
      target := some ["outer"] }, {}⟩
    let e : QueryError := .backend (Backend.injected "friend")
    let q : Plan := .literal [.int 1, .int 2]
    let s : Plan := .assoc "friend" (.target ["inner"] (.aggregate q))
    let p : Plan := .combine .merge [.literal [.int 5], .apply s q]
    ∃ m' mq child mf, p.runsApart = true ∧ run b p m = .error e m' ∧
      m'.world.calls = [.edges "friend" (.int 1), .edges "friend" (.int 2)] ∧
      m'.session = m.session ∧ run b q m = .ok () mq ∧ run b s mq.descend = .error e child ∧
      child.session.target = some ["inner"] ∧ run b (.apply s q) m = .error e mf ∧
      mf.session = { mq.session with tree := mq.session.tree.force } := by
  intro b m e q s p
  obtain ⟨m', hrun, hcalls⟩ : ∃ m', run b p m = .error e m' ∧
      m'.world.calls = [.edges "friend" (.int 1), .edges "friend" (.int 2)] := ⟨_, rfl, rfl⟩
  obtain ⟨mq, child, hq, hs, htarget⟩ : ∃ mq child, run b q m = .ok () mq ∧
      run b s mq.descend = .error e child ∧ child.session.target = some ["inner"] :=
    ⟨_, _, rfl, rfl, rfl⟩
  have hsame := ((run_failed_isolated (b := b)).1 p m m' e rfl hrun).1
  obtain ⟨mf, hf, -, hsession, -⟩ := run_failed_isolated.2 s q m mq child e hq hs
  exact ⟨m', mq, child, mf, rfl, hrun, hcalls, hsame, hq, hs, htarget, hf, hsession⟩

end Plan

end GraphQuery
