import GraphQuery.Proofs.Plan.WellFormed
/-!
# Quoted lists in the place of queries

An operator reads some of its operands as queries (`Operator.takesQuery`).  All that it makes of the
plan of a query is to put it into its own plan, unless an operand before it or after it fails
(`Setting`), and so it goes on through the operator forms around it (`Plan.exists_setting_within`).

A lookup is the exception: it takes a single operand that is an atom or a quoted form for an
identifier and does not analyze it.  So a quoted list and an explicit literal of the same forms lead
to the same plan in the place of every query but that of a lookup (`Plan.ofForm_quotedForm_iff`).
-/

namespace GraphQuery

open Argument (Read inForm)

/-! ## Where operators take queries -/

/-- Whether an operator takes a query in a place among a number of arguments. -/
def Operator.takesQuery (op : Operator) (count place : Nat) : Bool :=
  match op with
  | .combine _ | .difference | .apply => true
  | .literal | .json => false
  | .obj => count = 1
  | .assoc => place = 1
  | _ => place + 1 = count

def Operator.bounds : Operator → Nat × Option Nat
  | .limit => (2, some 3)
  | .assoc => (1, some 2)
  | .combine _ | .obj => (1, none)
  | .literal => (0, none)
  | .reverse | .count | .aggregate | .json | .exist => (1, some 1)
  | _ => (2, some 2)

theorem Signature.bounds_of_mem : ∀ s ∈ Signature.catalogue,
    (s.least, s.most) = s.operator.bounds := by decide

/-! ## Causes -/

/-- What comes of a form, without the form in which an error arose. -/
def causes {α : Type} (r : Except PlanError α) : Except PlanFault α := r.mapError PlanError.fault

theorem causes_inForm {α : Type} (node : Form) (r : Read α) : causes (inForm node r) = r := by
  cases r <;> rfl

theorem causes_bind {α β : Type} (x : Except PlanError α) (f : α → Except PlanError β) :
    causes (x >>= f) = causes x >>= fun a => causes (f a) := by
  cases x <;> rfl

theorem causes_map {α β : Type} (x : Except PlanError α) (f : α → β) :
    causes (x.map f) = (causes x).map f := by
  cases x <;> rfl

/-! ## What surrounds a query -/

/--
What is made of the plan of a query: it is put into a larger plan, unless something fails that is read
before it or after it.
-/
structure Setting where
  before : Except PlanFault Unit
  after : Except PlanFault Unit
  put : Plan → Plan
  put_injective : Function.Injective put

namespace Setting

def run (s : Setting) (r : Except PlanFault Plan) : Except PlanFault Plan := do
  s.before
  let p ← r
  s.after
  return s.put p

def between {α β : Type} (x : Except PlanFault α) (y : Except PlanFault β)
    (put : α → β → Plan → Plan) (h : ∀ a b, Function.Injective (put a b)) : Setting :=
  match x, y with
  | .error e, _ => ⟨.error e, .ok (), id, Function.injective_id⟩
  | .ok _, .error e => ⟨.ok (), .error e, id, Function.injective_id⟩
  | .ok a, .ok b => ⟨.ok (), .ok (), put a b, h a b⟩

theorem run_between {α β : Type} (x : Except PlanFault α) (y : Except PlanFault β)
    (put : α → β → Plan → Plan) (h : ∀ a b, Function.Injective (put a b))
    (r : Except PlanFault Plan) : (between x y put h).run r = (do
      let a ← x
      let p ← r
      let b ← y
      return put a b p) := by
  cases x with
  | error e => rfl
  | ok a =>
    cases y with
    | error e => cases r <;> rfl
    | ok b => rfl

def comp (s t : Setting) : Setting where
  before := do
    s.before
    t.before
  after := do
    t.after
    s.after
  put := s.put ∘ t.put
  put_injective := s.put_injective.comp t.put_injective

theorem run_comp (s t : Setting) (r : Except PlanFault Plan) : (s.comp t).run r = s.run (t.run r) := by
  obtain ⟨x, y, put, h⟩ := s
  obtain ⟨x', y', put', h'⟩ := t
  cases x with
  | error e => rfl
  | ok _ =>
    cases x' with
    | error e => rfl
    | ok _ =>
      cases r with
      | error e => rfl
      | ok p => cases y' <;> rfl

theorem run_ok_eq_iff (s : Setting) {p q : Plan} (hne : p ≠ q) :
    s.run (.ok p) = s.run (.ok q) ↔ ∃ e, s.run (.ok p) = .error e := by
  obtain ⟨x, y, put, h⟩ := s
  cases x with
  | error e => exact ⟨fun _ => ⟨e, rfl⟩, fun _ => rfl⟩
  | ok _ =>
    cases y with
    | error e => exact ⟨fun _ => ⟨e, rfl⟩, fun _ => rfl⟩
    | ok _ => exact ⟨fun he => absurd (h (Except.ok.inj he)) hne, fun ⟨e, he⟩ => nomatch he⟩

end Setting

/-! ## Operators -/

theorem Signature.length_of_accepts {spec : Signature} (hs : spec ∈ catalogue) {n : Nat}
    (ha : spec.accepts n = true) :
    spec.operator.bounds.1 ≤ n ∧ ∀ most ∈ spec.operator.bounds.2, n ≤ most := by
  rw [← bounds_of_mem spec hs]
  rw [accepts, Bool.and_eq_true, decide_eq_true_eq, Option.all_eq_true] at ha
  exact ⟨ha.1, fun most hm => of_decide_eq_true (ha.2 most hm)⟩

section

variable {α : Type} {before after : List α}

theorem eq_nil_of_only (h : before.length + 1 + after.length ≤ 1) : before = [] ∧ after = [] :=
  ⟨List.eq_nil_of_length_eq_zero (by omega), List.eq_nil_of_length_eq_zero (by omega)⟩

theorem eq_singleton_of_second (h : before.length + 1 + after.length ≤ 2)
    (hplace : before.length = 1) : ∃ a, before = [a] ∧ after = [] := by
  obtain ⟨a, rfl⟩ := List.length_eq_one_iff.1 hplace
  refine ⟨a, rfl, List.eq_nil_of_length_eq_zero ?_⟩
  rw [List.length_singleton] at h
  omega

theorem second_of_last {count place : Nat} (hleast : 2 ≤ count) (hmost : count ≤ 2)
    (hlast : decide (place + 1 = count) = true) : place = 1 := by
  have h := of_decide_eq_true hlast
  omega

theorem eq_singleton_of_first (h : before.length + 1 + after.length = 2)
    (hplace : before.length = 0) : ∃ a, before = [] ∧ after = [a] := by
  have hlast : after.length = 1 := by omega
  obtain ⟨a, rfl⟩ := List.length_eq_one_iff.1 hlast
  exact ⟨a, List.eq_nil_of_length_eq_zero hplace, rfl⟩

end

namespace Plan

variable {schema : Schema} {spec : Signature} {before after : List Operand}

def Sets (schema : Schema) (spec : Signature) (before after : List Operand) : Prop :=
  ∃ s : Setting, ∀ node f plan, (spec.operator = .obj → f.isAtom = false) →
    causes (ofOperator schema spec node (before ++ ⟨f, plan⟩ :: after)) = s.run (causes plan)

theorem sets_only (put : Plan → Plan) (hput : Function.Injective put)
    (hmost : before.length + 1 + after.length ≤ 1)
    (h : ∀ node f plan, (spec.operator = .obj → f.isAtom = false) →
      ofOperator schema spec node [⟨f, plan⟩] = plan.map put) :
    Sets schema spec before after := by
  obtain ⟨rfl, rfl⟩ := eq_nil_of_only hmost
  refine ⟨⟨.ok (), .ok (), put, hput⟩, fun node f plan hf => ?_⟩
  rw [List.nil_append, h node f plan hf, causes_map]
  cases causes plan <;> rfl

theorem sets_second {α : Type} (read : Form → Read α) (put : α → Plan → Plan)
    (hput : ∀ a, Function.Injective (put a)) (hmost : before.length + 1 + after.length ≤ 2)
    (hplace : before.length = 1)
    (h : ∀ node a o, ∃ node', ofOperator schema spec node [a, o] = (do
      let v ← inForm node' (read a.form)
      return put v (← o.plan))) : Sets schema spec before after := by
  obtain ⟨a, rfl, rfl⟩ := eq_singleton_of_second hmost hplace
  refine ⟨.between (read a.form) (.ok ()) (fun v _ => put v) fun v _ => hput v,
    fun node f plan _ => ?_⟩
  obtain ⟨node', h⟩ := h node a ⟨f, plan⟩
  rw [List.singleton_append, h, causes_bind, causes_inForm, Setting.run_between]
  cases read a.form with
  | error e => rfl
  | ok v => cases plan <;> rfl

theorem sets_transform {α : Type} (read : Form → Read α) (step : α → Transform)
    (hleast : 2 ≤ before.length + 1 + after.length) (hmost : before.length + 1 + after.length ≤ 2)
    (hlast : decide (before.length + 1 = before.length + 1 + after.length) = true)
    (h : ∀ node a o, ∃ node', ofOperator schema spec node [a, o] = (do
      let v ← inForm node' (read a.form)
      return transform (step v) (← o.plan))) : Sets schema spec before after :=
  sets_second read (fun v => transform (step v)) (fun _ _ _ h => (transform.inj h).2) hmost
    (second_of_last hleast hmost hlast) h

theorem sets_either (put : Plan → Plan → Plan) (hleft : ∀ r, Function.Injective (put · r))
    (hright : ∀ l, Function.Injective (put l)) (hn : before.length + 1 + after.length = 2)
    (h : ∀ node l r, ofOperator schema spec node [l, r] = (do
      return put (← l.plan) (← r.plan))) : Sets schema spec before after := by
  have hplace : before.length = 0 ∨ before.length = 1 := by omega
  rcases hplace with hfirst | hsecond
  · obtain ⟨r, rfl, rfl⟩ := eq_singleton_of_first hn hfirst
    refine ⟨.between (.ok ()) (causes r.plan) (fun _ q p => put p q) fun _ q => hleft q,
      fun node f plan _ => ?_⟩
    rw [List.nil_append, h, Setting.run_between]
    cases plan with
    | error e => rfl
    | ok p => cases r.plan <;> rfl
  · obtain ⟨l, rfl, rfl⟩ := eq_singleton_of_second (Nat.le_of_eq hn) hsecond
    refine ⟨.between (causes l.plan) (.ok ()) (fun p _ => put p) fun p _ => hright p,
      fun node f plan _ => ?_⟩
    rw [List.singleton_append, h, Setting.run_between]
    cases l.plan with
    | error e => rfl
    | ok p => cases plan <;> rfl

theorem plans_append (os os' : List Operand) : Operand.plans (os ++ os') = (do
    let ps ← Operand.plans os
    let qs ← Operand.plans os'
    return ps ++ qs) := by
  induction os with
  | nil =>
    rw [List.nil_append]
    cases Operand.plans os' <;> rfl
  | cons o rest ih =>
    rw [List.cons_append, Operand.plans, Operand.plans, ih]
    cases o.plan with
    | error e => rfl
    | ok p =>
      cases Operand.plans rest with
      | error e => rfl
      | ok ps => cases Operand.plans os' <;> rfl

theorem sets_combine {how : Combination} (hop : spec.operator = .combine how) :
    Sets schema spec before after := by
  have hput : ∀ ps qs, Function.Injective fun p => combine how (ps ++ p :: qs) :=
    fun ps qs p p' he => (List.cons.inj (List.append_cancel_left (combine.inj he).2)).1
  refine ⟨.between (causes (Operand.plans before)) (causes (Operand.plans after)) _ hput,
    fun node f plan _ => ?_⟩
  have hof : ofOperator schema spec node (before ++ ⟨f, plan⟩ :: after) =
      (Operand.plans (before ++ ⟨f, plan⟩ :: after)).map (combine how) := by
    simp only [ofOperator, hop]
  rw [hof, plans_append, Operand.plans, Setting.run_between]
  cases Operand.plans before with
  | error e => rfl
  | ok ps =>
    cases plan with
    | error e => rfl
    | ok p => cases Operand.plans after <;> rfl

theorem sets_limit (hop : spec.operator = .limit) (hplace : before.length = 2)
    (hlast : after = []) : Sets schema spec before after := by
  obtain ⟨n, skipped, rfl⟩ := List.length_eq_two.1 hplace
  subst hlast
  have hput : ∀ (counts : Nat × Nat) (_ : Unit),
      Function.Injective (transform (.limit counts.1 counts.2)) := fun _ _ _ _ h =>
    (transform.inj h).2
  refine ⟨.between (do
    let count ← Argument.count spec.name n.form
    let offset ← Argument.count spec.name skipped.form
    return (count, offset)) (.ok ()) _ hput, fun node f plan _ => ?_⟩
  simp only [ofOperator, hop, List.cons_append, List.nil_append, causes_bind, causes_inForm]
  rw [Setting.run_between]
  cases Argument.count spec.name n.form with
  | error e => rfl
  | ok count =>
    cases Argument.count spec.name skipped.form with
    | error e => rfl
    | ok offset => cases plan <;> rfl

/-- **What an operator makes of a query that it takes is a setting of that query.** -/
theorem sets_operator (hs : spec ∈ Signature.catalogue)
    (ha : spec.accepts (before.length + 1 + after.length) = true)
    (hq : spec.operator.takesQuery (before.length + 1 + after.length) before.length = true) :
    Sets schema spec before after := by
  obtain ⟨hleast, hmost⟩ := Signature.length_of_accepts hs ha
  generalize hop : spec.operator = op at hleast hmost hq
  cases op with
  | reverse =>
    exact sets_only (transform .reverse) (fun _ _ h => (transform.inj h).2) (hmost 1 rfl)
      fun node f plan _ => by simp only [ofOperator, hop]
  | count =>
    exact sets_only (transform .count) (fun _ _ h => (transform.inj h).2) (hmost 1 rfl)
      fun node f plan _ => by simp only [ofOperator, hop]
  | aggregate =>
    exact sets_only aggregate (fun _ _ h => aggregate.inj h) (hmost 1 rfl)
      fun node f plan _ => by simp only [ofOperator, hop]
  | exist =>
    exact sets_only exist (fun _ _ h => exist.inj h) (hmost 1 rfl)
      fun node f plan _ => by simp only [ofOperator, hop]
  | combine how => exact sets_combine hop
  | difference =>
    exact sets_either difference (fun _ _ _ h => (difference.inj h).1)
      (fun _ _ _ h => (difference.inj h).2) (Nat.le_antisymm (hmost 2 rfl) hleast)
      fun node l r => by simp only [ofOperator, hop]
  | apply =>
    exact sets_either apply (fun _ _ _ h => (apply.inj h).1)
      (fun _ _ _ h => (apply.inj h).2) (Nat.le_antisymm (hmost 2 rfl) hleast)
      fun node l r => by simp only [ofOperator, hop]
  | limit =>
    have hlast : before.length + 1 = before.length + 1 + after.length := of_decide_eq_true hq
    have hn := hmost 3 rfl
    by_cases hplace : before.length = 1
    · exact sets_second (Argument.count spec.name) (fun n => transform (.limit n 0))
        (fun _ _ _ h => (transform.inj h).2) (by omega) hplace
        fun node a o => ⟨node, by simp only [ofOperator, hop]⟩
    · have htwo : before.length = 2 := by
        have hl : 2 ≤ before.length + 1 + after.length := hleast
        omega
      exact sets_limit hop htwo (List.eq_nil_of_length_eq_zero (by omega))
  | sample =>
    exact sets_transform (Argument.count spec.name) .sample hleast (hmost 2 rfl) hq
      fun node a o => ⟨node, by simp only [ofOperator, hop]⟩
  | filter =>
    exact sets_transform (Predicate.read schema) .filter hleast (hmost 2 rfl) hq
      fun node a o => ⟨a.form, by simp only [ofOperator, hop, Predicate.ofForm]⟩
  | project =>
    exact sets_transform (Argument.fields spec.name) .project hleast (hmost 2 rfl) hq
      fun node a o => ⟨node, by simp only [ofOperator, hop]⟩
  | orderBy =>
    exact sets_transform (Argument.sortKeys spec.name) .orderBy hleast (hmost 2 rfl) hq
      fun node a o => ⟨node, by simp only [ofOperator, hop]⟩
  | groupBy =>
    exact sets_transform (Argument.fields spec.name) .groupBy hleast (hmost 2 rfl) hq
      fun node a o => ⟨node, by simp only [ofOperator, hop]⟩
  | bind =>
    exact sets_transform (Argument.bindings spec.name) .bind hleast (hmost 2 rfl) hq
      fun node a o => ⟨node, by simp only [ofOperator, hop]⟩
  | nest =>
    exact sets_second (Argument.name spec.name) nest
      (fun _ _ _ h => (nest.inj h).2) (hmost 2 rfl) (second_of_last hleast (hmost 2 rfl) hq)
      fun node a o => ⟨node, by simp only [ofOperator, hop]⟩
  | target =>
    exact sets_second (Argument.fields spec.name) target
      (fun _ _ _ h => (target.inj h).2) (hmost 2 rfl) (second_of_last hleast (hmost 2 rfl) hq)
      fun node a o => ⟨node, by simp only [ofOperator, hop]⟩
  | assoc =>
    exact sets_second (Argument.name spec.name) assoc (fun _ _ _ h => (assoc.inj h).2)
      (hmost 2 rfl) (of_decide_eq_true hq) fun node a o => ⟨node, by simp only [ofOperator, hop]⟩
  | obj =>
    refine sets_only obj (fun _ _ h => obj.inj h) (Nat.le_of_eq (of_decide_eq_true hq))
      fun node f plan hf => ?_
    cases f with
    | list fs => simp only [ofOperator, hop]
    | _ => cases hf hop
  | literal | json => cases hq

end Plan

/-! ## Forms -/

/-- An operator form without one of its arguments. -/
structure Slot where
  spec : Signature
  before : List Form
  after : List Form

namespace Slot

def fill (s : Slot) (f : Form) : Form := .list (.symbol s.spec.name :: (s.before ++ f :: s.after))

structure TakesQuery (s : Slot) : Prop where
  known : Signature.find? s.spec.name = some s.spec
  place : s.spec.operator.takesQuery (s.before.length + 1 + s.after.length) s.before.length = true

end Slot

/-- A form deep inside operator forms, the outermost one first. -/
def Form.within (slots : List Slot) (f : Form) : Form := slots.foldr Slot.fill f

namespace Plan

variable (schema : Schema)

theorem ofForm_fill {s : Slot} (hs : s.TakesQuery) (f : Form) : ofForm schema (s.fill f) =
    if s.spec.accepts (s.before.length + 1 + s.after.length) then
      ofOperator schema s.spec (s.fill f)
        (operandsOf schema s.before ++ ⟨f, ofForm schema f⟩ :: operandsOf schema s.after)
    else .error ⟨.arity s.spec.name s.spec.arity (s.before.length + 1 + s.after.length),
      s.fill f⟩ := by
  have hsig : Signature.ofForm? (.list (.symbol s.spec.name :: (s.before ++ f :: s.after))) =
      some s.spec := hs.known
  have hlength : (s.before ++ f :: s.after).length = s.before.length + 1 + s.after.length := by
    rw [List.length_append, List.length_cons]
    omega
  rw [← hlength, Slot.fill, ofForm, hsig]
  simp only [operandsOf_eq, List.map_append, List.map_cons]

/-- **The plan of an operator form is a setting of the plan of a query that the operator takes.** -/
theorem exists_setting {s : Slot} (hs : s.TakesQuery) : ∃ t : Setting, ∀ f,
    (s.spec.operator = .obj → f.isAtom = false) →
      causes (ofForm schema (s.fill f)) = t.run (causes (ofForm schema f)) := by
  have hmem : s.spec ∈ Signature.catalogue := List.mem_of_find?_eq_some hs.known
  cases ha : s.spec.accepts (s.before.length + 1 + s.after.length) with
  | false =>
    refine ⟨⟨.error (.arity s.spec.name s.spec.arity (s.before.length + 1 + s.after.length)), .ok (),
      id, Function.injective_id⟩, fun f _ => ?_⟩
    rw [ofForm_fill schema hs, ha]
    rfl
  | true =>
    obtain ⟨t, ht⟩ : Sets schema s.spec (operandsOf schema s.before) (operandsOf schema s.after) :=
      sets_operator hmem (by simpa [operandsOf_eq] using ha)
        (by simpa [operandsOf_eq] using hs.place)
    refine ⟨t, fun f hf => ?_⟩
    rw [ofForm_fill schema hs, ha, if_pos rfl, ht (s.fill f) f _ hf]

/-- **The plan of a form is a setting of the plan of each query deep inside it**, if that is a list. -/
theorem exists_setting_within {slots : List Slot} (hs : ∀ s ∈ slots, s.TakesQuery) :
    ∃ t : Setting, ∀ f, f.isAtom = false →
      causes (ofForm schema (f.within slots)) = t.run (causes (ofForm schema f)) := by
  induction slots with
  | nil =>
    refine ⟨⟨.ok (), .ok (), id, Function.injective_id⟩, fun f _ => ?_⟩
    rw [Form.within, List.foldr_nil]
    cases causes (ofForm schema f) <;> rfl
  | cons s rest ih =>
    obtain ⟨hs, hrest⟩ := List.forall_mem_cons.1 hs
    obtain ⟨t, ht⟩ := ih hrest
    obtain ⟨u, hu⟩ := exists_setting schema hs
    refine ⟨u.comp t, fun f hf => ?_⟩
    have hlist : (f.within rest).isAtom = false := by
      cases rest with
      | nil => exact hf
      | cons _ _ => rfl
    rw [Setting.run_comp, ← ht f hf, ← hu _ fun _ => hlist]
    rfl

/-! ## Literals -/

def literalForm (fs : List Form) : Form := .list (.symbol "literal" :: fs)

def quotedForm (fs : List Form) : Form := .quote (.list fs)

theorem ofForm_literalForm (fs : List Form) :
    ofForm schema (literalForm fs) = .ok (.literal (fs.map Form.toValue)) := by
  have hsig : Signature.ofForm? (literalForm fs) = some ⟨"literal", .literal, 0, none⟩ := rfl
  have haccepts : (⟨"literal", .literal, 0, none⟩ : Signature).accepts fs.length = true := by
    simp [Signature.accepts]
  rw [literalForm, ofForm, ← literalForm, hsig]
  simp [haccepts, ofOperator, operandsOf_eq, pure, Except.pure]

theorem ofForm_quotedForm (fs : List Form) :
    ofForm schema (quotedForm fs) = .ok (.literal (fs.map Form.toValue)) := by
  rw [quotedForm, ofForm, literalValues]

theorem valuesOfForms_eq (fs : List Form) : Form.toValue.valuesOfForms fs = fs.map Form.toValue := by
  induction fs with
  | nil => rfl
  | cons f rest ih => rw [Form.toValue.valuesOfForms, ih, List.map_cons]

/-- **A lookup takes a quoted list for one identifier.** -/
theorem ofForm_obj {s : Slot} (hs : s.TakesQuery) (hop : s.spec.operator = .obj) (fs : List Form) :
    ofForm schema (s.fill (literalForm fs)) = .ok (.obj (.literal (fs.map Form.toValue))) ∧
      ofForm schema (s.fill (quotedForm fs)) =
        .ok (.obj (.literal [.list (fs.map Form.toValue)])) := by
  have hplace : s.before.length + 1 + s.after.length = 1 := by
    have h := hs.place
    rw [hop] at h
    exact of_decide_eq_true h
  obtain ⟨hbefore, hafter⟩ := eq_nil_of_only (Nat.le_of_eq hplace)
  have hbounds := Signature.bounds_of_mem s.spec (List.mem_of_find?_eq_some hs.known)
  rw [hop] at hbounds
  obtain ⟨hleast, hmost⟩ := Prod.mk.inj hbounds
  have haccepts : s.spec.accepts 1 = true := by simp [Signature.accepts, hleast, hmost]
  constructor
  · rw [ofForm_fill schema hs, hplace, if_pos haccepts, hbefore, hafter, ofForm_literalForm]
    simp only [operandsOf, List.nil_append, literalForm, ofOperator, hop]
    rfl
  · rw [ofForm_fill schema hs, hplace, if_pos haccepts, hbefore, hafter, ofForm_quotedForm,
      ← valuesOfForms_eq]
    simp only [operandsOf, List.nil_append, quotedForm, ofOperator, hop]
    rfl

theorem causes_eq_error {α : Type} {r : Except PlanError α} :
    (∃ e, causes r = .error e) ↔ ∃ e, r = .error e := by
  cases r with
  | error e => exact ⟨fun _ => ⟨e, rfl⟩, fun _ => ⟨e.fault, rfl⟩⟩
  | ok a => exact ⟨nofun, nofun⟩

/--
**A list of forms can be quoted or given as an explicit literal in the place of any query, unless that
is the query of a lookup**: as the operand of an operator form, deep inside other operator forms, both
lead to the same plan or to an error of the same cause.  As the query of a lookup they always lead to
different plans, if to any.
-/
theorem ofForm_quotedForm_iff {slots : List Slot} {s : Slot} (h : ∀ t ∈ s :: slots, t.TakesQuery)
    (fs : List Form) :
    causes (ofForm schema ((s.fill (quotedForm fs)).within slots)) =
        causes (ofForm schema ((s.fill (literalForm fs)).within slots)) ↔
      (s.spec.operator = .obj →
        ∃ e, ofForm schema ((s.fill (literalForm fs)).within slots) = .error e) := by
  obtain ⟨hs, hslots⟩ := List.forall_mem_cons.1 h
  obtain ⟨t, ht⟩ := exists_setting_within schema hslots
  rw [← causes_eq_error, ht _ rfl, ht _ rfl]
  by_cases hop : s.spec.operator = .obj
  · obtain ⟨hliteral, hquoted⟩ := ofForm_obj schema hs hop fs
    have hne : obj (literal (fs.map Form.toValue)) ≠ obj (literal [.list (fs.map Form.toValue)]) := by
      intro h
      have hsize := congrArg sizeOf (literal.inj (obj.inj h))
      simp only [List.cons.sizeOf_spec, Value.list.sizeOf_spec, List.nil.sizeOf_spec] at hsize
      omega
    rw [hliteral, hquoted]
    exact (eq_comm.trans (t.run_ok_eq_iff hne)).trans ⟨fun he _ => he, fun he => he hop⟩
  · obtain ⟨u, hu⟩ := exists_setting schema hs
    rw [hu _ fun ho => absurd ho hop, hu _ fun ho => absurd ho hop, ofForm_quotedForm,
      ofForm_literalForm]
    exact ⟨fun _ ho => absurd ho hop, fun _ => rfl⟩

/-- The second operand of an intersection, below a limit: nested lists and quoted forms stay as they
are. -/
theorem ofForm_quoted_operand :
    let fs : List Form := [.int 1, .list [.int 2, .quote (.int 3)], .quote (.list [])]
    let s : Slot := ⟨⟨"and", .combine .and, 1, none⟩, [.list [.symbol "obj", .int 1]], []⟩
    let t : Slot := ⟨⟨"limit", .limit, 2, some 3⟩, [.int 2], []⟩
    (∀ u ∈ [s, t], u.TakesQuery) ∧ s.spec.operator ≠ .obj ∧
      causes (ofForm .default ((s.fill (quotedForm fs)).within [t])) =
        causes (ofForm .default ((s.fill (literalForm fs)).within [t])) ∧
      ofForm .default ((s.fill (quotedForm fs)).within [t]) =
        .ok (.transform (.limit 2 0) (.combine .and [.obj (.literal [.int 1]),
          .literal [.int 1, .list [.int 2, .int 3], .list []]])) := by
  intro fs s t
  have hs : ∀ u ∈ [s, t], u.TakesQuery := by
    intro u hu
    rcases List.mem_pair.1 hu with rfl | rfl <;> exact ⟨rfl, rfl⟩
  exact ⟨hs, nofun, (ofForm_quotedForm_iff .default hs fs).2 nofun, rfl⟩

/-- As the query of a lookup, a quoted list of identifiers is one identifier. -/
theorem ofForm_quoted_lookup :
    let s : Slot := ⟨⟨"obj", .obj, 1, none⟩, [], []⟩
    let ids : List Form := [.int 3, .int 2, .int 1]
    s.TakesQuery ∧
      ofForm .default (s.fill (literalForm ids)) =
        .ok (.obj (.literal [.int 3, .int 2, .int 1])) ∧
      ofForm .default (s.fill (quotedForm ids)) =
        .ok (.obj (.literal [.list [.int 3, .int 2, .int 1]])) ∧
      ofForm .default (s.fill (quotedForm ids)) ≠ ofForm .default (s.fill (literalForm ids)) := by
  intro s ids
  have hliteral : ofForm .default (s.fill (literalForm ids)) =
      .ok (.obj (.literal [.int 3, .int 2, .int 1])) := rfl
  have hquoted : ofForm .default (s.fill (quotedForm ids)) =
      .ok (.obj (.literal [.list [.int 3, .int 2, .int 1]])) := rfl
  refine ⟨⟨rfl, rfl⟩, hliteral, hquoted, ?_⟩
  rw [hliteral, hquoted]
  intro h
  cases literal.inj (obj.inj (Except.ok.inj h))

end Plan

end GraphQuery
