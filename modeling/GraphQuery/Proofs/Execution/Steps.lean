import GraphQuery.Execution.Run
import GraphQuery.Proofs.Tree.Sequences
/-!
# The steps of a run

What each step of a plan does to the machine it runs on, said once: a run of an operator is a run of
its input followed by one change of the session.
-/

namespace GraphQuery

namespace Run

variable {α β : Type}

theorem bind_apply (x : Run α) (f : α → Run β) (m : Machine) :
    (x >>= f) m = match x m with
      | .ok a m' => f a m'
      | .error e m' => .error e m' := by
  show EStateM.bind x f m = _
  unfold EStateM.bind
  cases x m <;> rfl

/-- **A sequence of steps succeeds when each of them does.** -/
theorem bind_eq_ok {x : Run α} {f : α → Run β} {m m'' : Machine} {b : β} :
    (x >>= f) m = .ok b m'' ↔ ∃ a m', x m = .ok a m' ∧ f a m' = .ok b m'' := by
  rw [bind_apply]
  cases x m with
  | ok a m' =>
    constructor
    · intro h
      exact ⟨a, m', rfl, h⟩
    · rintro ⟨_, _, ⟨⟩, h⟩
      exact h
  | error e m' => simp

/-- **A sequence of steps fails when one of them does, after those before it.** -/
theorem bind_eq_error {x : Run α} {f : α → Run β} {m m'' : Machine} {e : QueryError} :
    (x >>= f) m = .error e m'' ↔
      x m = .error e m'' ∨ ∃ a m', x m = .ok a m' ∧ f a m' = .error e m'' := by
  rw [bind_apply]
  cases x m with
  | ok a m' =>
    constructor
    · intro h
      exact .inr ⟨a, m', rfl, h⟩
    · rintro (hx | ⟨_, _, ⟨⟩, h⟩)
      · cases hx
      · exact h
  | error e m' => simp

theorem then_eq_ok {x y : Run Unit} {m m'' : Machine} :
    (do x; y) m = .ok () m'' ↔ ∃ m', x m = .ok () m' ∧ y m' = .ok () m'' := by
  rw [bind_eq_ok]
  constructor
  · rintro ⟨_, m', hx, hy⟩
    exact ⟨m', hx, hy⟩
  · rintro ⟨m', hx, hy⟩
    exact ⟨(), m', hx, hy⟩

theorem get_apply (m : Machine) : (get : Run Machine) m = .ok m m := rfl

theorem update_apply (f : Session → Session) (m : Machine) :
    update f m = .ok () { m with session := f m.session } := rfl

theorem update_eq_ok {f : Session → Session} {m m' : Machine} :
    update f m = .ok () m' ↔ m' = { m with session := f m.session } := by
  rw [update_apply]
  simp [eq_comm]

end Run

namespace Machine

/-- The machine that a subquery starts on: its session holds the leaves of the tree at hand. -/
def descend (m : Machine) : Machine :=
  ⟨.within (m.session.tree.leaves.map Leaf.item), m.world⟩

def placed (m : Machine) : Replant.Placed := ⟨m.session.tree.force, m.session.cursor⟩

def replant (m child : Machine) : Machine :=
  let placed := Replant.place m.session.tree.leaves child.session m.placed
  ⟨{ m.session with
      tree := placed.tree, cursor := placed.cursor
      target := child.session.target.or m.session.target }, child.world⟩

def abandon (m child : Machine) : Machine :=
  ⟨{ m.session with tree := m.session.tree.force }, child.world⟩

end Machine

namespace Run

/-- **What applying a subquery does.** -/
theorem applySubquery_apply (step : Run Unit) (m : Machine) :
    applySubquery step m = match step m.descend with
      | .ok _ child => .ok () (m.replant child)
      | .error e child => .error e (m.abandon child) := by
  have hd : m.descend = ⟨.within (m.session.tree.force.leaves.map Leaf.item), m.world⟩ := by
    rw [Tree.leaves_force]
    rfl
  rw [hd]
  unfold applySubquery
  simp only [bind_apply, update_apply, get_apply, inChild]
  cases step ⟨.within (m.session.tree.force.leaves.map Leaf.item), m.world⟩ with
  | ok a child => simp only [Machine.replant, Machine.placed, Tree.leaves_force]
  | error e child => rfl

theorem applySubquery_eq_ok {step : Run Unit} {m m' : Machine} :
    applySubquery step m = .ok () m' ↔
      ∃ child, step m.descend = .ok () child ∧ m' = m.replant child := by
  rw [applySubquery_apply]
  cases step m.descend with
  | ok a child =>
    constructor
    · rintro ⟨⟩
      exact ⟨child, rfl, rfl⟩
    · rintro ⟨_, ⟨⟩, rfl⟩
      rfl
  | error e child => simp

theorem rewriteBranches_eq_ok {f : Rewrite} {m m' : Machine} :
    rewriteBranches f m = .ok () m' ↔ ∃ t w,
      f.onBranches m.session { world := m.world } = (t, ⟨w, none⟩) ∧
        m' = ⟨{ m.session with tree := t }, w⟩ := by
  unfold rewriteBranches
  obtain ⟨t, w, failure⟩ := f.onBranches m.session { world := m.world }
  cases failure with
  | none =>
    constructor
    · rintro ⟨⟩
      exact ⟨t, w, rfl, rfl⟩
    · rintro ⟨_, _, ⟨⟩, rfl⟩
      rfl
  | some e => simp

theorem rewriteBranches_eq_error {f : Rewrite} {m m' : Machine} {e : QueryError} :
    rewriteBranches f m = .error e m' ↔ ∃ t w,
      f.onBranches m.session { world := m.world } = (t, ⟨w, some e⟩) ∧
        m' = ⟨{ m.session with tree := t }, w⟩ := by
  unfold rewriteBranches
  obtain ⟨t, w, failure⟩ := f.onBranches m.session { world := m.world }
  cases failure with
  | none => simp
  | some e' =>
    constructor
    · rintro ⟨⟩
      exact ⟨t, w, rfl, rfl⟩
    · rintro ⟨_, _, ⟨⟩, rfl⟩
      rfl

theorem transform_apply (t : Transform) (m : Machine) :
    transform t m = match m.session.cursor with
      | some _ => rewriteBranches (transformItems t) m
      | none =>
        let (tree, words) := m.session.tree.traverse (transformSeq t) m.world.words
        .ok () ⟨{ m.session with tree }, { m.world with words }⟩ := by
  unfold transform
  rw [bind_apply, get_apply]
  simp only []
  cases m.session.cursor <;> rfl

theorem attach_eq_ok {b : Backend} {type : String} {m m' : Machine} :
    attach b type m = .ok () m' ↔ ∃ found w,
      Edges.lookup b type m.session.tree.leaves m.world = ⟨found, none, w⟩ ∧
        m' = ⟨{ m.session with
          tree := (Edges.commit type found m.session.tree.force).2
          cursor := some ⟨(Edges.commit type found m.session.tree.force).1, type⟩ }, w⟩ := by
  unfold attach
  simp only []
  rw [Tree.leaves_force]
  obtain ⟨found, failure, w⟩ := Edges.lookup b type m.session.tree.leaves m.world
  cases failure with
  | none =>
    constructor
    · rintro ⟨⟩
      exact ⟨found, w, rfl, rfl⟩
    · rintro ⟨_, _, ⟨⟩, rfl⟩
      rfl
  | some e => simp

theorem operand_eq_ok {step : Run Unit} {t : Tree} {m m' : Machine} :
    operand step m = .ok t m' ↔ ∃ after,
      step ⟨.ofScope m.session.scope, m.world⟩ = .ok () after ∧
        t = after.session.tree ∧ m' = ⟨m.session, after.world⟩ := by
  unfold operand
  rw [bind_apply, get_apply]
  simp only [bind_apply, inChild]
  cases step ⟨.ofScope m.session.scope, m.world⟩ with
  | ok a after =>
    constructor
    · rintro ⟨⟩
      exact ⟨after, rfl, rfl, rfl⟩
    · rintro ⟨_, ⟨⟩, rfl, rfl⟩
      rfl
  | error e after => simp

theorem operand_eq_error {step : Run Unit} {m m' : Machine} {e : QueryError} :
    operand step m = .error e m' ↔ ∃ after,
      step ⟨.ofScope m.session.scope, m.world⟩ = .error e after ∧
        m' = ⟨m.session, after.world⟩ := by
  unfold operand
  rw [bind_apply, get_apply]
  simp only [bind_apply, inChild]
  cases step ⟨.ofScope m.session.scope, m.world⟩ with
  | ok a after => simp [pure, EStateM.pure]
  | error e after =>
    constructor
    · rintro ⟨⟩
      exact ⟨after, rfl, rfl⟩
    · rintro ⟨_, ⟨⟩, rfl⟩
      rfl

end Run

/-! ## Plans -/

/-- **Plans are built from plans.** -/
theorem Plan.induction {motive : Plan → Prop} (literal : ∀ values, motive (.literal values))
    (json : ∀ document, motive (.json document))
    (transform : ∀ t q, motive q → motive (.transform t q))
    (aggregate : ∀ q, motive q → motive (.aggregate q))
    (combine : ∀ how operands, (∀ p ∈ operands, motive p) → motive (.combine how operands))
    (difference : ∀ l r, motive l → motive r → motive (.difference l r))
    (nest : ∀ key q, motive q → motive (.nest key q))
    (target : ∀ names q, motive q → motive (.target names q))
    (apply : ∀ s q, motive s → motive q → motive (.apply s q))
    (assoc : ∀ type q, motive q → motive (.assoc type q))
    (assocHere : ∀ type, motive (.assocHere type))
    (obj : ∀ q, motive q → motive (.obj q)) (exist : ∀ q, motive q → motive (.exist q)) :
    ∀ p, motive p :=
  @Plan.rec motive (fun operands => ∀ p ∈ operands, motive p) literal json transform aggregate
    combine difference nest target apply assoc assocHere obj exist
    (fun _ h => absurd h List.not_mem_nil)
    (fun p rest hp hrest q hq => by
      rcases List.mem_cons.1 hq with rfl | hq
      · exact hp
      · exact hrest q hq)

namespace Plan

variable {b : Backend} {m m' : Machine}

theorem run_transform {t : Transform} {q : Plan} :
    run b (transform t q) m = .ok () m' ↔
      ∃ mq, run b q m = .ok () mq ∧ Run.transform t mq = .ok () m' :=
  Run.then_eq_ok

theorem run_aggregate {q : Plan} :
    run b (aggregate q) m = .ok () m' ↔ ∃ mq, run b q m = .ok () mq ∧
      m' = ⟨mq.session.reset (.anon (.lazy mq.session.tree.leafFlow)), mq.world⟩ := by
  refine Run.then_eq_ok.trans ?_
  simp only [Run.update_eq_ok]

theorem run_nest {key : String} {q : Plan} :
    run b (nest key q) m = .ok () m' ↔
      ∃ mq, run b q m = .ok () mq ∧ m' = ⟨mq.session.nest key, mq.world⟩ := by
  refine Run.then_eq_ok.trans ?_
  simp only [Run.update_eq_ok]

theorem run_target {names : List String} {q : Plan} :
    run b (target names q) m = .ok () m' ↔
      ∃ mq, run b q m = .ok () mq ∧ m' = ⟨{ mq.session with target := some names }, mq.world⟩ := by
  refine Run.then_eq_ok.trans ?_
  simp only [Run.update_eq_ok]

theorem run_apply {s q : Plan} :
    run b (apply s q) m = .ok () m' ↔ ∃ mq, run b q m = .ok () mq ∧
      ∃ child, run b s mq.descend = .ok () child ∧ m' = mq.replant child := by
  refine Run.then_eq_ok.trans ?_
  simp only [Run.applySubquery_eq_ok]

theorem run_assoc {type : String} {q : Plan} :
    run b (assoc type q) m = .ok () m' ↔
      ∃ mq, run b q m = .ok () mq ∧ Run.attach b type mq = .ok () m' :=
  Run.then_eq_ok

theorem run_obj {q : Plan} :
    run b (obj q) m = .ok () m' ↔
      ∃ mq, run b q m = .ok () mq ∧ Run.rewriteBranches (Objects.branch b) mq = .ok () m' :=
  Run.then_eq_ok

def Leaves (b : Backend) (p : Plan) (scope : Option (List Item)) (t : Tree) : Prop :=
  ∃ w after, run b p ⟨.ofScope scope, w⟩ = .ok () after ∧ t = after.session.tree

theorem leaves_of_operand {p : Plan} {t : Tree}
    (h : Run.operand (run b p) m = .ok t m') :
    Leaves b p m.session.scope t ∧ m'.session = m.session := by
  obtain ⟨after, ha, ht, rfl⟩ := Run.operand_eq_ok.1 h
  exact ⟨⟨m.world, after, ha, ht⟩, rfl⟩

theorem run_exist {q : Plan} (h : run b (exist q) m = .ok () m') : ∃ found w,
    m' = ⟨m.session.reset (.ofItems (Session.existence m.session.scope found)), w⟩ := by
  obtain ⟨t, m₁, ho, h⟩ := Run.bind_eq_ok.1 h
  have hs := (leaves_of_operand ho).2
  rw [Run.update_eq_ok] at h
  subst h
  rw [hs]
  exact ⟨_, m₁.world, rfl⟩

theorem run_difference {left right : Plan} (h : run b (difference left right) m = .ok () m') :
    ∃ l r w, Leaves b left m.session.scope l ∧ Leaves b right m.session.scope r ∧
      m' = ⟨m.session.reset
        (.anon (.lazy (SetAlgebra.difference l.leafFlow r.leafFlow))), w⟩ := by
  obtain ⟨l, m₁, hl, h⟩ := Run.bind_eq_ok.1 h
  obtain ⟨r, m₂, hr, h⟩ := Run.bind_eq_ok.1 h
  obtain ⟨hl, hs₁⟩ := leaves_of_operand hl
  obtain ⟨hr, hs₂⟩ := leaves_of_operand hr
  rw [hs₁] at hr hs₂
  rw [Run.update_eq_ok] at h
  subst h
  rw [hs₂]
  exact ⟨l, r, m₂.world, hl, hr, rfl⟩

theorem leaves_of_runAll : ∀ {operands : List Plan} {m m' : Machine} {ts : List Tree},
    runAll b operands m = .ok ts m' →
      m'.session = m.session ∧ ∀ t ∈ ts, ∃ p ∈ operands, Leaves b p m.session.scope t
  | [], m, m', ts, h => by
    cases h
    exact ⟨rfl, fun _ h => absurd h List.not_mem_nil⟩
  | p :: rest, m, m', ts, h => by
    obtain ⟨t, m₁, hp, h⟩ := Run.bind_eq_ok.1 h
    obtain ⟨ts, m₂, hrest, h⟩ := Run.bind_eq_ok.1 h
    cases h
    obtain ⟨hp, hs₁⟩ := leaves_of_operand hp
    obtain ⟨hs₂, hts⟩ := leaves_of_runAll hrest
    rw [hs₁] at hs₂ hts
    refine ⟨hs₂, fun u hu => ?_⟩
    rcases List.mem_cons.1 hu with rfl | hu
    · exact ⟨p, List.mem_cons_self, hp⟩
    · obtain ⟨q, hq, hu⟩ := hts u hu
      exact ⟨q, List.mem_cons_of_mem p hq, hu⟩

theorem run_combine {how : Combination} {operands : List Plan}
    (h : run b (combine how operands) m = .ok () m') :
    (∃ (f : List (Flow Item) → Flow Item) (ts : List Tree) (w : World),
      (f = SetAlgebra.intersect ∨ f = SetAlgebra.union) ∧
      (∀ t ∈ ts, ∃ p ∈ operands, Leaves b p m.session.scope t) ∧
      m' = ⟨m.session.reset (.anon (.lazy (f (ts.map how.flowOf)))), w⟩) ∨
    (how = .merge ∧ ∃ (merged : Option Tree) (m₁ : Machine),
      runMerge b none operands m = .ok merged m₁ ∧
        m' = ⟨m₁.session.reset (merged.getD .empty), m₁.world⟩) := by
  have hset : ∀ f : List (Flow Item) → Flow Item, (do
      let trees ← runAll b operands
      Run.update (·.reset (.anon (.lazy (f (trees.map how.flowOf)))))) m = .ok () m' →
      ∃ (ts : List Tree) (w : World), (∀ t ∈ ts, ∃ p ∈ operands, Leaves b p m.session.scope t) ∧
        m' = ⟨m.session.reset (.anon (.lazy (f (ts.map how.flowOf)))), w⟩ := by
    intro f h
    obtain ⟨ts, m₁, hr, h⟩ := Run.bind_eq_ok.1 h
    obtain ⟨hs, hts⟩ := leaves_of_runAll hr
    rw [Run.update_eq_ok, hs] at h
    exact ⟨ts, m₁.world, hts, h⟩
  cases how with
  | join => cases h
  | merge =>
    obtain ⟨merged, m₁, hr, h⟩ := Run.bind_eq_ok.1 h
    exact .inr ⟨rfl, merged, m₁, hr, Run.update_eq_ok.1 h⟩
  | and =>
    obtain ⟨ts, w, h⟩ := hset _ h
    exact .inl ⟨_, ts, w, .inl rfl, h⟩
  | or =>
    obtain ⟨ts, w, h⟩ := hset _ h
    exact .inl ⟨_, ts, w, .inr rfl, h⟩
  | indexOr =>
    obtain ⟨ts, w, h⟩ := hset _ h
    exact .inl ⟨_, ts, w, .inr rfl, h⟩

theorem runMerge_induction (good : Tree → Prop)
    (hm : ∀ t u v, good t → good u → t.merge u = .ok v → good v) :
    ∀ {operands : List Plan} {merged merged' : Option Tree} {m m' : Machine},
      (∀ p ∈ operands, ∀ t, Leaves b p m.session.scope t → good t) →
      (∀ t ∈ merged, good t) → runMerge b merged operands m = .ok merged' m' →
      m'.session = m.session ∧ ∀ t ∈ merged', good t
  | [], merged, merged', m, m', _, h₀, h => by
    cases h
    exact ⟨rfl, h₀⟩
  | p :: rest, merged, merged', m, m', hp, h₀, h => by
    obtain ⟨t, m₁, ho, h⟩ := Run.bind_eq_ok.1 h
    obtain ⟨hl, hs₁⟩ := leaves_of_operand ho
    have ht := hp p List.mem_cons_self t hl
    obtain ⟨u, hu, h⟩ : ∃ u, good u ∧ runMerge b (some u) rest m₁ = .ok merged' m' := by
      cases merged with
      | none => exact ⟨t, ht, h⟩
      | some v =>
        obtain ⟨w, m₂, hv, h⟩ := Run.bind_eq_ok.1 h
        cases hw : v.merge t with
        | error e =>
          rw [hw] at hv
          cases hv
        | ok w =>
          rw [hw] at hv
          cases hv
          exact ⟨w, hm v t w (h₀ v rfl) ht hw, h⟩
    have hr := runMerge_induction good hm (fun q hq => by
      rw [hs₁]
      exact hp q (List.mem_cons_of_mem p hq)) (fun _ h => by cases h; exact hu) h
    rw [hs₁] at hr
    exact hr

/-! ## Plans that start a session anew -/

def startsAnew : Plan → Bool
  | literal _ | json _ | aggregate _ | combine _ _ | difference _ _ | exist _ => true
  | _ => false

/-- **A plan that starts a session anew leaves a session without a cursor.** -/
theorem run_startsAnew {p : Plan} (hp : p.startsAnew = true) (h : run b p m = .ok () m') :
    ∃ (s : Session) (t : Tree) (w : World), m' = ⟨s.reset t, w⟩ := by
  cases p with
  | literal values => cases h; exact ⟨_, _, _, rfl⟩
  | json document => cases h; exact ⟨_, _, _, rfl⟩
  | aggregate q =>
    obtain ⟨mq, -, rfl⟩ := run_aggregate.1 h
    exact ⟨_, _, _, rfl⟩
  | combine how operands =>
    rcases run_combine h with ⟨f, ts, w, -, -, rfl⟩ | ⟨-, merged, m₁, -, rfl⟩
    · exact ⟨_, _, _, rfl⟩
    · exact ⟨_, _, _, rfl⟩
  | difference l r =>
    obtain ⟨_, _, _, -, -, rfl⟩ := run_difference h
    exact ⟨_, _, _, rfl⟩
  | exist q =>
    obtain ⟨found, w, rfl⟩ := run_exist h
    exact ⟨_, _, _, rfl⟩
  | _ => cases hp

theorem cursor_induction {motive : Plan → Prop}
    (anew : ∀ p, p.startsAnew = true → motive p)
    (transform : ∀ t q, motive q → motive (transform t q))
    (nest : ∀ key q, motive q → motive (nest key q))
    (target : ∀ names q, motive q → motive (target names q))
    (apply : ∀ s q, motive s → motive q → motive (apply s q))
    (assoc : ∀ type q, motive q → motive (assoc type q))
    (assocHere : ∀ type, motive (assocHere type))
    (obj : ∀ q, motive q → motive (obj q)) : ∀ p, motive p :=
  Plan.induction (fun _ => anew _ rfl) (fun _ => anew _ rfl) transform (fun _ _ => anew _ rfl)
    (fun _ _ _ => anew _ rfl) (fun _ _ _ _ => anew _ rfl) nest target apply assoc assocHere obj
    (fun _ _ => anew _ rfl)

end Plan

end GraphQuery
