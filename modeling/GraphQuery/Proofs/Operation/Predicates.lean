import GraphQuery.Operation.Transform
/-!
# Tuples in predicates

A tuple of fields is compared with its operands position by position.  The first position that is
not equal decides: the operators that fit how it compares hold and no others
(`Predicate.holds_compare`), so where it does not compare none holds, whatever comes later.  Ranges
and memberships are conjunctions and disjunctions of such comparisons.
-/

namespace GraphQuery

def Comparison.fitting : Ordering → List Comparison
  | .eq => [.eq, .le, .ge]
  | .lt => [.ne, .lt, .le]
  | .gt => [.ne, .gt, .ge]

theorem Comparison.accepts_iff {op : Comparison} {o : Ordering} :
    op.accepts o = true ↔ op ∈ fitting o := by
  cases op <;> cases o <;> decide

/-! ## The first position that is not equal -/

namespace Value

def compareAt? (vs ws : List Value) (i : Nat) : Option Ordering :=
  vs[i]?.bind fun v => ws[i]?.bind v.compare?

/-- **The first position that is not equal decides.** -/
theorem compareValues?_of_first : ∀ {vs ws : List Value} {i : Nat}, i < vs.length →
    vs.length = ws.length → (∀ j < i, compareAt? vs ws j = some .eq) →
      compareAt? vs ws i ≠ some .eq → compareValues? vs ws = compareAt? vs ws i
  | [], _, _, hi, _, _, _ => by cases hi
  | _ :: _, [], _, _, hl, _, _ => by cases hl
  | v :: vs, w :: ws, 0, _, _, _, hne => by
    have h0 : compareAt? (v :: vs) (w :: ws) 0 = v.compare? w := rfl
    rw [h0] at hne ⊢
    rw [compareValues?]
    split
    · rename_i he
      exact absurd he hne
    · rfl
  | v :: vs, w :: ws, i + 1, hi, hl, heq, hne => by
    have h0 : v.compare? w = some .eq := heq 0 (Nat.succ_pos i)
    rw [compareValues?, h0]
    exact compareValues?_of_first (Nat.lt_of_succ_lt_succ hi) (Nat.succ.inj hl)
      (fun j hj => heq (j + 1) (Nat.succ_lt_succ hj)) hne

theorem compareValues?_of_equal : ∀ {vs ws : List Value}, vs.length = ws.length →
    (∀ i < vs.length, compareAt? vs ws i = some .eq) → compareValues? vs ws = some .eq
  | [], [], _, _ => rfl
  | [], _ :: _, hl, _ | _ :: _, [], hl, _ => by cases hl
  | v :: vs, w :: ws, hl, heq => by
    have h0 : v.compare? w = some .eq := heq 0 (Nat.succ_pos vs.length)
    rw [compareValues?, h0]
    exact compareValues?_of_equal (Nat.succ.inj hl) fun i hi => heq (i + 1) (Nat.succ_lt_succ hi)

theorem compareValues?_singleton (v w : Value) : compareValues? [v] [w] = v.compare? w := by
  rw [compareValues?]
  split
  · rename_i h
    exact h.symm
  · rfl

end Value

namespace Predicate

variable {item : Item} {fields : List String} {operands : List Value}

/-! ## The values of the fields -/

theorem values?_eq_none_iff : ∀ {fields : List String},
    values? item fields = none ↔ ∃ field ∈ fields, item.contains field = false
  | [] => by simp [values?]
  | field :: rest => by
    simp only [values?, List.mem_cons, exists_eq_or_imp]
    rw [← values?_eq_none_iff, Record.contains]
    cases item.get? field <;> simp

theorem length_of_values? : ∀ {fields : List String} {vs : List Value},
    values? item fields = some vs → vs.length = fields.length
  | [], _, h => by cases h; rfl
  | field :: rest, _, h => by
    obtain ⟨v, -, h⟩ := Option.bind_eq_some_iff.1 h
    obtain ⟨vs, hvs, rfl⟩ := Option.map_eq_some_iff.1 h
    exact congrArg (· + 1) (length_of_values? hvs)

theorem getElem?_of_values? : ∀ {fields : List String} {vs : List Value},
    values? item fields = some vs → ∀ i : Nat, vs[i]? = fields[i]?.bind item.get?
  | [], _, h, i => by cases h; rfl
  | field :: rest, _, h, i => by
    obtain ⟨v, hv, h⟩ := Option.bind_eq_some_iff.1 h
    obtain ⟨vs, hvs, rfl⟩ := Option.map_eq_some_iff.1 h
    cases i with
    | zero => exact hv.symm
    | succ i => exact getElem?_of_values? hvs i

theorem compareFields?_eq (item : Item) (fields : List String) (operands : List Value) :
    compareFields? item fields operands =
      (values? item fields).bind (Value.compareValues? · operands) := by
  unfold compareFields?
  split
  · rename_i field operand
    rw [values?]
    cases item.get? field with
    | none => rfl
    | some v => exact (Value.compareValues?_singleton v operand).symm
  · rfl

/-! ## Which operators hold -/

/-- How an item's field compares with its operand, at one position of a tuple. -/
def orderAt? (item : Item) (fields : List String) (operands : List Value) (i : Nat) :
    Option Ordering :=
  (fields[i]?.bind item.get?).bind fun v => operands[i]?.bind v.compare?

theorem compareAt?_of_values? {vs : List Value} (h : values? item fields = some vs) (i : Nat) :
    Value.compareAt? vs operands i = orderAt? item fields operands i := by
  rw [Value.compareAt?, getElem?_of_values? h, orderAt?]

theorem holds_iff {op : Comparison} : (Predicate.compare op fields operands).holds item = true ↔
    ∃ o, compareFields? item fields operands = some o ∧ op ∈ Comparison.fitting o := by
  rw [holds, Option.any_eq_true]
  exact exists_congr fun o => and_congr_right fun _ => Comparison.accepts_iff

theorem holds_of_eq {o : Ordering} (h : compareFields? item fields operands = some o)
    (op : Comparison) : (Predicate.compare op fields operands).holds item = true ↔
      op ∈ Comparison.fitting o := by
  rw [holds_iff, h]
  simp

theorem holds_of_none (h : compareFields? item fields operands = none) (op : Comparison) :
    (Predicate.compare op fields operands).holds item = false := by
  rw [holds, h]
  rfl

theorem compareFields?_of_missing (h : ∃ field ∈ fields, item.contains field = false) :
    compareFields? item fields operands = none := by
  rw [compareFields?_eq, values?_eq_none_iff.2 h]
  rfl

section

variable (hl : fields.length = operands.length)
  (hp : ∀ field ∈ fields, item.contains field = true)

include hl hp

theorem exists_values : ∃ vs, values? item fields = some vs ∧ vs.length = operands.length := by
  have hne : values? item fields ≠ none := fun h => by
    obtain ⟨field, hf, hn⟩ := values?_eq_none_iff.1 h
    exact Bool.eq_false_iff.1 hn (hp field hf)
  obtain ⟨vs, hvs⟩ := Option.ne_none_iff_exists'.1 hne
  exact ⟨vs, hvs, (length_of_values? hvs).trans hl⟩

theorem compareFields?_of_equal
    (heq : ∀ i < fields.length, orderAt? item fields operands i = some .eq) :
    compareFields? item fields operands = some .eq := by
  obtain ⟨vs, hvs, hlen⟩ := exists_values hl hp
  rw [compareFields?_eq, hvs]
  refine Value.compareValues?_of_equal hlen fun i hi => ?_
  rw [compareAt?_of_values? hvs, heq i (length_of_values? hvs ▸ hi)]

theorem compareFields?_of_first {i : Nat} (hi : i < fields.length)
    (heq : ∀ j < i, orderAt? item fields operands j = some .eq)
    (hne : orderAt? item fields operands i ≠ some .eq) :
    compareFields? item fields operands = orderAt? item fields operands i := by
  obtain ⟨vs, hvs, hlen⟩ := exists_values hl hp
  rw [compareFields?_eq, hvs, ← compareAt?_of_values? hvs]
  refine Value.compareValues?_of_first (length_of_values? hvs ▸ hi) hlen (fun j hj => ?_) ?_
  · rw [compareAt?_of_values? hvs, heq j hj]
  · rwa [compareAt?_of_values? hvs]

end

/-! ## Single fields -/

theorem any_decide_eq (o : Option Ordering) (c : Ordering) :
    (o.any fun x => decide (x = c)) = decide (o = some c) := by
  cases o <;> simp

theorem holds_range (item : Item) (field : String) (hi lo : Value) :
    (range field hi lo).holds item = ((Predicate.compare .ge [field] [lo]).holds item &&
      (Predicate.compare .lt [field] [hi]).holds item) := by
  simp only [holds, compareFields?]
  cases item.get? field with
  | none => rfl
  | some v =>
    have hlt : (v.compare? hi).any Comparison.lt.accepts = decide (v.compare? hi = some .lt) :=
      any_decide_eq _ _
    rw [Option.any_some, Option.bind_some, Option.bind_some, hlt]

theorem holds_inSet (item : Item) (field : String) (members : List Value) :
    (inSet field members).holds item =
      members.any fun m => (Predicate.compare .eq [field] [m]).holds item := by
  simp only [holds, compareFields?]
  cases item.get? field with
  | none => simp
  | some v =>
    have heq (m : Value) : (v.compare? m).any Comparison.eq.accepts =
      decide (v.compare? m = some .eq) := any_decide_eq _ _
    simp only [Option.any_some, Option.bind_some, heq]

/-! ## All six operators -/

/-- What the six operators say of a tuple, by its first position that is not equal. -/
structure Lexicographic (item : Item) (fields : List String) (operands : List Value) : Prop where
  missing : (∃ field ∈ fields, item.contains field = false) →
    ∀ op, (Predicate.compare op fields operands).holds item = false
  equal : (∀ field ∈ fields, item.contains field = true) →
    (∀ i < fields.length, orderAt? item fields operands i = some .eq) →
      ∀ op, (Predicate.compare op fields operands).holds item = true ↔
        op ∈ Comparison.fitting .eq
  /-- Where the first such position does not compare, they are all false. -/
  undefined : (∀ field ∈ fields, item.contains field = true) → ∀ i < fields.length,
    (∀ j < i, orderAt? item fields operands j = some .eq) →
      orderAt? item fields operands i = none →
        ∀ op, (Predicate.compare op fields operands).holds item = false
  decided : (∀ field ∈ fields, item.contains field = true) → ∀ i < fields.length,
    (∀ j < i, orderAt? item fields operands j = some .eq) → ∀ o ≠ .eq,
      orderAt? item fields operands i = some o →
        ∀ op, (Predicate.compare op fields operands).holds item = true ↔
          op ∈ Comparison.fitting o

/--
**Tuples are compared lexicographically**, a single field like a tuple of one; a range is a
conjunction of two comparisons, and a membership is equality with some member.
-/
theorem holds_compare (item : Item) (hl : fields.length = operands.length) :
    Lexicographic item fields operands ∧
      (∀ field operand, (item.get? field).bind (·.compare? operand) =
        (values? item [field]).bind fun vs => (Value.list vs).compare? (.list [operand])) ∧
      (∀ field hi lo, (range field hi lo).holds item = true ↔
        (Predicate.compare .ge [field] [lo]).holds item = true ∧
          (Predicate.compare .lt [field] [hi]).holds item = true) ∧
        ∀ field members, (inSet field members).holds item = true ↔
          ∃ m ∈ members, (Predicate.compare .eq [field] [m]).holds item = true := by
  refine ⟨⟨fun h => holds_of_none (compareFields?_of_missing h),
    fun hp heq => holds_of_eq (compareFields?_of_equal hl hp heq), fun hp i hi heq hn => ?_,
    fun hp i hi heq o ho hio => ?_⟩, fun field operand => ?_, fun field hi lo => ?_,
    fun field members => ?_⟩
  · refine holds_of_none ((compareFields?_of_first hl hp hi heq ?_).trans hn)
    rw [hn]
    nofun
  · refine holds_of_eq ((compareFields?_of_first hl hp hi heq ?_).trans hio)
    rw [hio]
    exact fun h => ho (Option.some.inj h)
  · exact compareFields?_eq item [field] [operand]
  · rw [holds_range, Bool.and_eq_true]
  · rw [holds_inSet, List.any_eq_true]

/-- A list that does not compare hides what follows it, and one that is smaller decides. -/
theorem holds_compare_lists :
    let item : Item := ⟨[("n", .int 1), ("l", .list [.int 2, .string "x"]), ("s", .string "a")]⟩
    let fields := ["n", "l", "s"]
    let hidden : List Value := [.float (.ofInt 1), .list [.int 2, .null], .string "b"]
    let decided : List Value := [.float (.ofInt 1), .list [.int 3], .null]
    (fields.length = hidden.length ∧ fields.length = decided.length) ∧
      (∀ op, (Predicate.compare op fields hidden).holds item = false) ∧
        ∀ op, (Predicate.compare op fields decided).holds item = true ↔ op ∈ [.ne, .lt, .le] := by
  intro item fields hidden decided
  have hp : ∀ field ∈ fields, item.contains field = true := by decide
  refine ⟨⟨rfl, rfl⟩, ?_, ?_⟩
  · exact (holds_compare item rfl).1.undefined hp 1 (by decide) (by decide) (by rfl)
  · exact (holds_compare item rfl).1.decided hp 1 (by decide) (by decide) .lt nofun (by rfl)

end Predicate

end GraphQuery
