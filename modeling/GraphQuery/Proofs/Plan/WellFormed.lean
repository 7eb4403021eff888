import Mathlib.Data.List.Basic
import GraphQuery.Plan.OfForm
import GraphQuery.Proofs.Form.Grammar
/-!
# Well-formed plans

The checks that a form passes on its way to a plan are the ones that running the plan relies on:
tuples and their operands pair up, operands have the types of their fields, no list that names
something is empty, and the identifier is not assigned (`Plan.Valid`).  They hold at every node of
the plan of a form (`Plan.wellFormed_of_ofForm`), for each reader of arguments hands out only what
passes (`Yields`).
-/

namespace GraphQuery

/-! ## Declared types -/

def FieldType.kind : FieldType → Kind
  | int => .int
  | float => .float
  | string => .string
  | bool => .bool

/-- Whether a value can be compared with a field: it has the declared type, and for an undeclared
field it is a number or a string. -/
def Value.Suits (v : Value) : Option FieldType → Prop
  | some type => v.kind = type.kind
  | none => v.kind = .int ∨ v.kind = .float ∨ v.kind = .string

namespace Schema

theorem check_eq_ok : ∀ {declared : List (String × FieldType)} {seen : List String},
    check seen declared = .ok () → (declared.map Prod.fst).Nodup ∧
      (∀ f ∈ declared, f.1 ∉ seen) ∧ ∀ f ∈ declared, isReserved f.1 = true → f.2 = .int
  | [], _, _ => ⟨.nil, nofun, nofun⟩
  | (name, type) :: rest, seen, h => by
    rw [check] at h
    split at h
    · cases h
    split at h
    · cases h
    rename_i hnew htype
    obtain ⟨hnodup, hseen, hreserved⟩ := check_eq_ok h
    have hname : name ∉ seen := by simpa using hnew
    refine ⟨List.nodup_cons.2 ⟨fun hm => ?_, hnodup⟩, fun f hf => ?_, fun f hf hr => ?_⟩
    · obtain ⟨f, hf, he⟩ := List.mem_map.1 hm
      exact hseen f hf (he ▸ List.mem_cons_self)
    · rcases List.mem_cons.1 hf with rfl | hf
      · exact hname
      · exact fun hm => hseen f hf (List.mem_cons_of_mem name hm)
    · rcases List.mem_cons.1 hf with rfl | hf
      · by_contra hne
        exact htype (by simp [hr, hne])
      · exact hreserved f hf hr

theorem lookup_eq_some_iff_mem : ∀ {fields : List (String × FieldType)} {name : String}
    {type : FieldType}, (fields.map Prod.fst).Nodup →
      (fields.lookup name = some type ↔ (name, type) ∈ fields)
  | [], _, _, _ => ⟨nofun, nofun⟩
  | (n, t) :: rest, name, type, h => by
    obtain ⟨hn, hrest⟩ := List.nodup_cons.1 h
    rw [List.lookup_cons, List.mem_cons]
    by_cases he : name = n
    · subst he
      have hnone : (name, type) ∉ rest := fun hm =>
        hn (List.mem_map.2 ⟨(name, type), hm, rfl⟩)
      simp [hnone, eq_comm]
    · have hb : (name == n) = false := by simpa using he
      simp [hb, he, lookup_eq_some_iff_mem hrest]

/-- **The schema of some declarations has the types that these and every schema declare.** -/
theorem fieldType?_ofFields {declared : List (String × FieldType)} {schema : Schema}
    (h : ofFields declared = .ok schema) (name : String) (type : FieldType) :
    schema.fieldType? name = some type ↔ (name, type) ∈ reserved ∨ (name, type) ∈ declared := by
  unfold ofFields at h
  cases hc : check [] declared with
  | error e =>
    rw [hc] at h
    cases h
  | ok u =>
    rw [hc] at h
    cases h
    obtain ⟨hnodup, -, hreserved⟩ := check_eq_ok hc
    have hkeys : ((reserved ++ declared.filter fun f => !isReserved f.1).map
        Prod.fst).Nodup := by
      rw [List.map_append]
      refine List.nodup_append.2 ⟨by decide, hnodup.sublist (List.filter_sublist.map _), ?_⟩
      rintro n hn m hm rfl
      obtain ⟨f, hf, rfl⟩ := List.mem_map.1 hm
      have hfree := (List.mem_filter.1 hf).2
      simp only [reserved, List.map_cons, List.map_nil, List.mem_cons, List.not_mem_nil,
        or_false] at hn
      rcases hn with hn | hn <;> simp [isReserved, hn] at hfree
    rw [fieldType?, lookup_eq_some_iff_mem hkeys, List.mem_append, List.mem_filter]
    refine or_congr_right' fun hnot => ⟨And.left, fun hm => ⟨hm, ?_⟩⟩
    -- a reserved name can be declared again, but only as what it is already
    cases hr : isReserved name with
    | false => rfl
    | true =>
      have hint : type = .int := hreserved _ hm hr
      subst hint
      simp [isReserved] at hr
      rcases hr with rfl | rfl <;> simp [reserved] at hnot

end Schema

/-! ## What running relies on -/

/-- Whether a condition pairs up fields and operands and compares with values that suit the
fields. -/
def Predicate.Valid (schema : Schema) : Predicate → Prop
  | compare _ fields operands => fields ≠ [] ∧ fields.length = operands.length ∧
    ∀ x ∈ fields.zip operands, x.2.Suits (schema.fieldType? x.1)
  | range field hi lo => hi.Suits (schema.fieldType? field) ∧ lo.Suits (schema.fieldType? field)
  | inSet field members => ∀ v ∈ members, v.Suits (schema.fieldType? field)
  | contains field _ | beginsWith field _ => ∀ type ∈ schema.fieldType? field, type = .string

def Transform.Valid (schema : Schema) : Transform → Prop
  | filter p => p.Valid schema
  | project fields | groupBy fields => fields ≠ []
  | orderBy keys => keys ≠ []
  | bind bindings => bindings ≠ [] ∧ ∀ b ∈ bindings, b.name ≠ idField
  | limit _ _ | sample _ | reverse | count => True

namespace Plan

def Valid (schema : Schema) : Plan → Prop
  | transform t _ => t.Valid schema
  | combine _ operands => operands ≠ []
  | target names _ => names ≠ []
  | _ => True

def inputs : Plan → List Plan
  | literal _ | json _ | assocHere _ => []
  | transform _ q | aggregate q | nest _ q | target _ q | assoc _ q | obj q | exist q => [q]
  | combine _ operands => operands
  | difference l r => [l, r]
  | apply s q => [s, q]

/-- The nodes of a plan, each taken as the plan that it is the topmost node of. -/
inductive Node : Plan → Plan → Prop
  | top (p : Plan) : Node p p
  | under {n q p : Plan} (hq : q ∈ p.inputs) (h : Node n q) : Node n p

def WellFormed (schema : Schema) (p : Plan) : Prop := ∀ n, Node n p → n.Valid schema

variable {schema : Schema}

theorem wellFormed_iff {p : Plan} :
    p.WellFormed schema ↔ p.Valid schema ∧ ∀ q ∈ p.inputs, q.WellFormed schema := by
  constructor
  · exact fun h => ⟨h p (.top p), fun q hq n hn => h n (.under hq hn)⟩
  · rintro ⟨hp, hinputs⟩ n (_ | ⟨hq, h⟩)
    · exact hp
    · exact hinputs _ hq n h

theorem wellFormed_leaf {p : Plan} (hp : p.Valid schema) (hi : p.inputs = []) :
    p.WellFormed schema := wellFormed_iff.2 ⟨hp, fun q hq => by rw [hi] at hq; cases hq⟩

theorem wellFormed_one {p q : Plan} (hp : p.Valid schema) (hi : p.inputs = [q])
    (hq : q.WellFormed schema) : p.WellFormed schema := by
  refine wellFormed_iff.2 ⟨hp, fun r hr => ?_⟩
  rw [hi] at hr
  rwa [List.mem_singleton.1 hr]

theorem wellFormed_two {p q r : Plan} (hp : p.Valid schema) (hi : p.inputs = [q, r])
    (hq : q.WellFormed schema) (hr : r.WellFormed schema) : p.WellFormed schema := by
  refine wellFormed_iff.2 ⟨hp, fun s hs => ?_⟩
  rw [hi] at hs
  rcases List.mem_pair.1 hs with rfl | rfl
  · exact hq
  · exact hr

end Plan

/-! ## What a reading comes to -/

section

variable {ε ε' α β : Type} {P : α → Prop} {Q : β → Prop}

def Yields (P : α → Prop) (r : Except ε α) : Prop := ∀ a, r = .ok a → P a

theorem yields_ok {a : α} (h : P a) : Yields P (.ok a : Except ε α) := fun _ he => by
  cases he
  exact h

theorem yields_error {e : ε} : Yields P (.error e : Except ε α) := nofun

theorem Yields.bind {x : Except ε α} {f : α → Except ε β} (hx : Yields P x)
    (hf : ∀ a, P a → Yields Q (f a)) : Yields Q (x >>= f) := by
  cases x with
  | error e => exact yields_error
  | ok a => exact hf a (hx a rfl)

theorem Yields.map {x : Except ε α} {f : α → β} (hx : Yields P x) (hf : ∀ a, P a → Q (f a)) :
    Yields Q (x.map f) := by
  cases x with
  | error e => exact yields_error
  | ok a => exact yields_ok (hf a (hx a rfl))

theorem Yields.mapError {x : Except ε α} {f : ε → ε'} (hx : Yields P x) :
    Yields P (x.mapError f) := by
  cases x with
  | error e => exact yields_error
  | ok a => exact yields_ok (hx a rfl)

theorem yields_any (x : Except ε α) : Yields (fun _ => True) x := fun _ _ => trivial

end

namespace Argument

variable {α : Type} {P : α → Prop} {read : Form → Read α}

theorem yields_all {fs : List Form} (h : ∀ f ∈ fs, Yields P (read f)) :
    Yields (fun as : List α => as.length = fs.length ∧ ∀ a ∈ as, P a) (all read fs) := by
  induction fs with
  | nil => exact yields_ok ⟨rfl, nofun⟩
  | cons f rest ih =>
    refine (h f List.mem_cons_self).bind fun a ha =>
      (ih fun g hg => h g (List.mem_cons_of_mem f hg)).map fun as has => ⟨?_, ?_⟩
    · rw [List.length_cons, List.length_cons, has.1]
    · exact List.forall_mem_cons.2 ⟨ha, has.2⟩

theorem yields_all_of_ne {fs : List Form} (hne : fs ≠ []) (h : ∀ f ∈ fs, Yields P (read f)) :
    Yields (fun as : List α => as ≠ [] ∧ ∀ a ∈ as, P a) (all read fs) := fun as he => by
  obtain ⟨hlength, has⟩ := yields_all h as he
  refine ⟨fun hnil => hne (List.length_eq_zero_iff.1 ?_), has⟩
  rw [← hlength, hnil, List.length_nil]

theorem yields_fields (op : String) (f : Form) : Yields (· ≠ []) (fields op f) := by
  unfold fields
  split
  · exact yields_error
  · rename_i fs hne
    exact fun names he => (yields_all_of_ne hne (fun g _ => yields_any (name op g)) names he).1
  · exact (yields_any _).map fun n _ => List.cons_ne_nil n []

theorem yields_sortKeys (op : String) (f : Form) : Yields (· ≠ []) (sortKeys op f) := by
  unfold sortKeys
  split
  · exact yields_error
  · rename_i fs hne
    exact fun keys he => (yields_all_of_ne hne (fun g _ => yields_any (sortKey op g)) keys he).1
  · exact (yields_any _).map fun k _ => List.cons_ne_nil k []

theorem yields_binding (op : String) (f : Form) :
    Yields (fun b : Binding => b.name ≠ idField) (binding op f) := by
  unfold binding
  split
  · refine (yields_any _).bind fun n _ => ?_
    split
    · exact yields_error
    · rename_i hne
      exact (yields_any _).map fun source _ => hne
  · exact yields_error

theorem yields_bindings (op : String) (f : Form) :
    Yields (fun bs : List Binding => bs ≠ [] ∧ ∀ b ∈ bs, b.name ≠ idField) (bindings op f) := by
  unfold bindings
  split
  · exact yields_error
  · rename_i fs hne
    exact yields_all_of_ne hne fun g _ => yields_binding op g
  · exact yields_error

end Argument

namespace Predicate

variable (schema : Schema)

/-- **An operand suits its field.** -/
theorem yields_operand (field : String) (f : Form) :
    Yields (·.Suits (schema.fieldType? field)) (operand schema field f) := by
  unfold operand
  generalize schema.fieldType? field = declared
  split
  · exact yields_error
  · exact yields_error
  · rename_i hlist hquote
    cases f with
    | atom a => cases a <;> exact yields_ok (by simp [Form.toValue, Value.Suits, Value.kind])
    | list fs => exact absurd rfl (hlist fs)
    | quote f => exact absurd rfl (hquote f)
  · exact yields_ok rfl
  · exact yields_ok rfl
  · exact yields_ok rfl
  · exact yields_ok rfl
  · exact yields_ok rfl
  · split
    · exact yields_ok rfl
    · split
      · exact yields_ok rfl
      · exact yields_error
  · exact yields_error

theorem yields_operands : ∀ {fields : List String} {fs : List Form},
    fields.length = fs.length →
      Yields (fun vs : List Value => fields.length = vs.length ∧
        ∀ x ∈ fields.zip vs, x.2.Suits (schema.fieldType? x.1)) (operands schema fields fs)
  | [], [], _ => yields_ok ⟨rfl, nofun⟩
  | field :: fields, f :: fs, h => by
    refine (yields_operand schema field f).bind fun v hv =>
      (yields_operands (Nat.succ.inj h)).map fun vs hvs => ⟨?_, ?_⟩
    · rw [List.length_cons, List.length_cons, hvs.1]
    · rw [List.zip_cons_cons]
      exact List.forall_mem_cons.2 ⟨hv, hvs.2⟩

theorem yields_comparison (op : Comparison) (target value : Form) :
    Yields (Valid schema) (comparison schema op target value) := by
  unfold comparison
  split
  · rename_i fields values
    split
    · exact yields_error
    · rename_i hpair
      obtain ⟨hlength, hne⟩ := not_or.1 hpair
      refine (Argument.yields_all fun f _ => yields_any _).bind fun names hnames => ?_
      have hvalues : names.length = values.length := by
        rw [hnames.1]
        exact Decidable.not_not.1 hlength
      refine (yields_operands schema hvalues).bind fun vs hvs => yields_ok ⟨?_, hvs⟩
      rintro rfl
      exact hne (List.length_eq_zero_iff.1 hnames.1.symm)
  · exact yields_error
  · refine (yields_any _).bind fun field _ => (yields_operand schema field value).bind fun v hv =>
      yields_ok ⟨List.cons_ne_nil field [], rfl, ?_⟩
    intro x hx
    rw [List.mem_singleton.1 hx]
    exact hv

theorem yields_textOperand (op field : String) (f : Form) :
    Yields (fun _ => ∀ type ∈ schema.fieldType? field, type = .string)
      (textOperand schema op field f) := by
  unfold textOperand
  split
  · rename_i hs
    exact fun _ _ type ht => Option.some.inj (ht.symm.trans hs)
  · rename_i hs
    exact fun _ _ type ht => nomatch ht.symm.trans hs
  · exact yields_error

theorem yields_condition (op field : String) (f : Form) :
    Yields (Valid schema) (condition schema op field f) := by
  unfold condition
  split
  · split
    · exact (yields_operand schema field _).bind fun hi hhi =>
        (yields_operand schema field _).bind fun lo hlo => yields_ok ⟨hhi, hlo⟩
    · exact yields_error
  split
  · split
    · exact (Argument.yields_all fun f _ => yields_operand schema field f).bind fun vs hvs =>
        yields_ok hvs.2
    · refine (yields_operand schema field _).bind fun v hv => yields_ok fun w hw => ?_
      rwa [List.mem_singleton.1 hw]
  split
  · exact (yields_textOperand schema op field f).bind fun text ht => yields_ok ht
  split
  · exact (yields_textOperand schema op field f).bind fun text ht => yields_ok ht
  · exact yields_error

/-- **The condition that is read of a form is valid.** -/
theorem yields_read (f : Form) : Yields (Valid schema) (read schema f) := by
  unfold read
  split
  · split
    · split
      · exact yields_comparison schema _ _ _
      · exact (yields_any _).bind fun field _ => yields_condition schema _ field _
    · exact yields_error
  · exact yields_error

end Predicate

/-! ## Plans -/

namespace Plan

open Argument (inForm)

variable {schema : Schema}

theorem yields_plans {operands : List Operand}
    (h : ∀ o ∈ operands, Yields (WellFormed schema) o.plan) :
    Yields (fun ps : List Plan => ps.length = operands.length ∧ ∀ p ∈ ps, p.WellFormed schema)
      (Operand.plans operands) := by
  induction operands with
  | nil => exact yields_ok ⟨rfl, nofun⟩
  | cons o rest ih =>
    refine (h o List.mem_cons_self).bind fun p hp =>
      (ih fun o ho => h o (List.mem_cons_of_mem _ ho)).map fun ps hps => ⟨?_, ?_⟩
    · rw [List.length_cons, List.length_cons, hps.1]
    · exact List.forall_mem_cons.2 ⟨hp, hps.2⟩

theorem ne_nil_of_accepts {spec : Signature} {operands : List Operand}
    (hs : spec ∈ Signature.catalogue) {how : Combination} (ho : spec.operator = .combine how)
    (ha : spec.accepts operands.length = true) : operands ≠ [] := by
  have hleast : ∀ s ∈ Signature.catalogue, ∀ how, s.operator = .combine how → 0 < s.least := by
    simp [Signature.catalogue]
  rintro rfl
  rw [Signature.accepts, Bool.and_eq_true, decide_eq_true_eq] at ha
  exact absurd (hleast spec hs how ho) (Nat.not_lt.2 ha.1)

/-- **An operator makes a well-formed plan of well-formed plans.** -/
theorem yields_ofOperator {spec : Signature} {node : Form} {operands : List Operand}
    (hs : spec ∈ Signature.catalogue) (ha : spec.accepts operands.length = true)
    (h : ∀ o ∈ operands, Yields (WellFormed schema) o.plan) :
    Yields (WellFormed schema) (ofOperator schema spec node operands) := by
  have hliteral : ∀ values, (literal values).WellFormed schema := fun values =>
    wellFormed_leaf trivial rfl
  unfold ofOperator
  dsimp only
  split
  -- limit
  · exact (yields_any _).bind fun n _ => (h _ (by simp)).bind fun q hq =>
      yields_ok (wellFormed_one trivial rfl hq)
  · exact (yields_any _).bind fun n _ => (yields_any _).bind fun skipped _ =>
      (h _ (by simp)).bind fun q hq => yields_ok (wellFormed_one trivial rfl hq)
  -- sample
  · exact (yields_any _).bind fun n _ => (h _ (by simp)).bind fun q hq =>
      yields_ok (wellFormed_one trivial rfl hq)
  -- reverse
  · exact (h _ (by simp)).map fun q hq => wellFormed_one trivial rfl hq
  -- count
  · exact (h _ (by simp)).map fun q hq => wellFormed_one trivial rfl hq
  -- filter
  · exact (Predicate.yields_read schema _).mapError.bind fun c hc => (h _ (by simp)).bind
      fun q hq => yields_ok (wellFormed_one hc rfl hq)
  -- project
  · exact (Argument.yields_fields _ _).mapError.bind fun fields hf => (h _ (by simp)).bind
      fun q hq => yields_ok (wellFormed_one hf rfl hq)
  -- orderBy
  · exact (Argument.yields_sortKeys _ _).mapError.bind fun keys hk => (h _ (by simp)).bind
      fun q hq => yields_ok (wellFormed_one hk rfl hq)
  -- groupBy
  · exact (Argument.yields_fields _ _).mapError.bind fun fields hf => (h _ (by simp)).bind
      fun q hq => yields_ok (wellFormed_one hf rfl hq)
  -- bind
  · exact (Argument.yields_bindings _ _).mapError.bind fun bs hb => (h _ (by simp)).bind
      fun q hq => yields_ok (wellFormed_one hb rfl hq)
  -- aggregate
  · exact (h _ (by simp)).map fun q hq => wellFormed_one trivial rfl hq
  -- exist
  · exact (h _ (by simp)).map fun q hq => wellFormed_one trivial rfl hq
  -- combine
  · rename_i how ho
    refine (yields_plans h).map fun ps hps => wellFormed_iff.2 ⟨?_, hps.2⟩
    have hpos := List.length_pos_of_ne_nil (ne_nil_of_accepts hs ho ha)
    exact List.ne_nil_of_length_pos (by rwa [hps.1])
  -- difference
  · exact (h _ (by simp)).bind fun l hl => (h _ (by simp)).bind fun r hr =>
      yields_ok (wellFormed_two trivial rfl hl hr)
  -- nest
  · exact (yields_any _).bind fun key _ => (h _ (by simp)).bind fun q hq =>
      yields_ok (wellFormed_one trivial rfl hq)
  -- target
  · exact (Argument.yields_fields _ _).mapError.bind fun names hn => (h _ (by simp)).bind
      fun q hq => yields_ok (wellFormed_one hn rfl hq)
  -- apply
  · exact (h _ (by simp)).bind fun s hs => (h _ (by simp)).bind fun q hq =>
      yields_ok (wellFormed_two trivial rfl hs hq)
  -- assoc
  · exact (yields_any _).bind fun type _ => yields_ok (wellFormed_leaf trivial rfl)
  · exact (yields_any _).bind fun type _ => (h _ (by simp)).bind fun q hq =>
      yields_ok (wellFormed_one trivial rfl hq)
  -- obj
  · exact (h _ (List.mem_singleton_self _)).map fun q hq => wellFormed_one trivial rfl hq
  · split
    · exact yields_error.mapError
    · exact yields_ok (wellFormed_one trivial rfl (hliteral _))
  -- literal
  · exact yields_ok (hliteral _)
  -- json
  · exact (yields_any _).map fun document _ => wellFormed_leaf trivial rfl
  -- any other number of arguments
  · exact yields_error

theorem operandsOf_eq (fs : List Form) :
    operandsOf schema fs = fs.map fun f => ⟨f, ofForm schema f⟩ := by
  induction fs with
  | nil => rfl
  | cons f rest ih => rw [operandsOf, ih, List.map_cons]

/-- **The plan of a form is well-formed.** -/
theorem yields_ofForm (f : Form) : Yields (WellFormed schema) (ofForm schema f) := by
  have hliteral : ∀ values, (literal values).WellFormed schema := fun values =>
    wellFormed_leaf trivial rfl
  induction f using Form.induction with
  | atom a =>
    rw [ofForm]
    exact yields_error
  | quote f ih =>
    rw [ofForm]
    exact yields_ok (hliteral _)
  | list fs ih =>
    cases fs with
    | nil =>
      rw [ofForm]
      exact yields_ok (hliteral _)
    | cons f args =>
      rw [ofForm]
      split
      · exact yields_ok (hliteral _)
      · rename_i spec hspec
        split
        · rename_i haccepts
          rw [operandsOf_eq]
          have hmem : spec ∈ Signature.catalogue := by
            obtain ⟨name, -, hname⟩ := Option.bind_eq_some_iff.1 hspec
            exact List.mem_of_find?_eq_some hname
          refine yields_ofOperator hmem (by rwa [List.length_map]) (List.forall_mem_map.2 ?_)
          exact fun g hg => ih g (List.mem_cons_of_mem f hg)
        · exact yields_error

/--
**Every node of the plan of a form is as running relies on**, for the types that the schema was
declared with.
-/
theorem wellFormed_of_ofForm {declared : List (String × FieldType)} {schema : Schema} {f : Form}
    {p : Plan} (hs : Schema.ofFields declared = .ok schema) (h : ofForm schema f = .ok p) :
    (∀ n, Node n p → n.Valid schema) ∧ ∀ name type,
      schema.fieldType? name = some type ↔
        (name, type) ∈ Schema.reserved ∨ (name, type) ∈ declared :=
  ⟨yields_ofForm f p h, Schema.fieldType?_ofFields hs⟩

/-- A filter on a tuple of two declared fields, above an intersection of a projection and an
assignment. -/
theorem wellFormed_of_ofForm_filter :
    let declared := [("age", FieldType.int), ("name", .string)]
    let schema : Schema := ⟨Schema.reserved ++ declared⟩
    let f : Form := .list [.symbol "filter",
      .list [.symbol ">=", .list [.symbol "age", .symbol "name"], .list [.int 18, .symbol "x"]],
      .list [.symbol "and", .list [.symbol "project", .symbol "a", .list [.int 1]],
        .list [.symbol "let", .list [.list [.symbol "b", .symbol "a"]], .quote (.int 2)]]]
    let p : Plan := .transform (.filter (.compare .ge ["age", "name"] [.int 18, .string "x"]))
      (.combine .and [.transform (.project ["a"]) (.literal [.int 1]),
        .transform (.bind [⟨"b", "a"⟩]) (.literal [.int 2])])
    Schema.ofFields declared = .ok schema ∧ ofForm schema f = .ok p ∧
      ∀ n, Node n p → n.Valid schema := by
  intro declared schema f p
  have hs : Schema.ofFields declared = .ok schema := rfl
  have hf : ofForm schema f = .ok p := rfl
  exact ⟨hs, hf, (wellFormed_of_ofForm hs hf).1⟩

end Plan

end GraphQuery
