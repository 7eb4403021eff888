import GraphQuery.Proofs.Value.Order
/-!
# Filters and sorting

Sorting orders any two values.  A filter compares values of one kind only, and neither null nor
records; lists it compares up to their first difference, so what stands behind that need not compare
at all.  Without floats, what a filter compares is sorted the same way (`Value.order_of_compare?`),
and of two comparisons in a row that do not go down the first one that goes up decides
(`Value.compare?_then`).
-/

namespace GraphQuery

/-! ## Comparisons seen from the other side -/

theorem Double.compare?_swap (a b : Double) : b.compare? a = (a.compare? b).map Ordering.swap := by
  rw [Double.compare?, Double.compare?, Bool.or_comm]
  split
  · rfl
  · exact congrArg some Std.OrientedOrd.eq_swap

mutual

/-- **A comparison seen from the other side is reversed**, if there is one. -/
theorem Value.compare?_swap : ∀ a b : Value, b.compare? a = (a.compare? b).map Ordering.swap
  | .null, b | .record _, b => by cases b <;> rfl
  | .bool _, b => by
    cases b with
    | bool _ => exact congrArg some Std.OrientedOrd.eq_swap
    | _ => rfl
  | .int _, b => by
    cases b with
    | int _ => exact congrArg some Std.OrientedOrd.eq_swap
    | float _ => exact Double.compare?_swap _ _
    | _ => rfl
  | .float _, b => by
    cases b with
    | int _ | float _ => exact Double.compare?_swap _ _
    | _ => rfl
  | .string _, b => by
    cases b with
    | string _ => exact congrArg some Std.OrientedOrd.eq_swap
    | _ => rfl
  | .list as, b => by
    cases b with
    | list bs => exact compareValues?_swap as bs
    | _ => rfl

theorem compareValues?_swap : ∀ as bs : List Value,
    Value.compareValues? bs as = (Value.compareValues? as bs).map Ordering.swap
  | [], [] | [], _ :: _ | _ :: _, [] => rfl
  | a :: as, b :: bs => by
    rw [Value.compareValues?, Value.compareValues?, Value.compare?_swap a b]
    cases a.compare? b with
    | none => rfl
    | some o =>
      cases o with
      | eq => exact compareValues?_swap as bs
      | _ => rfl

end

/-! ## Comparisons without floats -/

namespace Value

variable {a b : Value} {as bs : List Value} {o : Ordering}

theorem isFloatless_cons : (list (a :: as)).isFloatless = true ↔
    a.isFloatless = true ∧ (list as).isFloatless = true := by
  rw [isFloatless, everyFloat, elementsEveryFloat, Bool.and_eq_true]
  rfl

theorem compareValues?_cons_eq_some : compareValues? (a :: as) (b :: bs) = some o ↔
    a.compare? b = some .eq ∧ compareValues? as bs = some o ∨ a.compare? b = some o ∧ o ≠ .eq := by
  rw [compareValues?]
  split
  · rename_i h
    rw [h]
    constructor
    · exact fun hs => .inl ⟨rfl, hs⟩
    · rintro (⟨-, hs⟩ | ⟨he, hne⟩)
      · exact hs
      · exact absurd (Option.some.inj he).symm hne
  · rename_i hne
    constructor
    · exact fun hs => .inr ⟨hs, fun he => hne (he ▸ hs)⟩
    · rintro (⟨he, -⟩ | ⟨hs, -⟩)
      · exact absurd he hne
      · exact hs

theorem compareValues?_cons_of_isLE (ho : o.isLE = true) :
    compareValues? (a :: as) (b :: bs) = some o ↔
      a.compare? b = some .eq ∧ compareValues? as bs = some o ∨ a.compare? b = some .lt ∧ o = .lt := by
  rw [compareValues?_cons_eq_some]
  cases o with
  | eq => simp
  | lt => simp
  | gt => cases ho

end Value

mutual

/-- **Values that a filter compares are sorted as they compare.** -/
theorem Value.order_of_compare? : ∀ {a b : Value} {o : Ordering}, a.isFloatless = true →
    b.isFloatless = true → a.compare? b = some o → a.order b = o
  | .null, b, _, _, _, h | .record _, b, _, _, _, h => by cases b <;> cases h
  | .bool _, b, _, _, _, h => by
    cases b with
    | bool _ => exact Option.some.inj h
    | _ => cases h
  | .int _, b, _, _, hb, h => by
    cases b with
    | int _ => exact Option.some.inj h
    | float _ => cases hb
    | _ => cases h
  | .string _, b, _, _, _, h => by
    cases b with
    | string _ => exact Option.some.inj h
    | _ => cases h
  | .list as, b, _, ha, hb, h => by
    cases b with
    | list bs => exact orderValues_of_compareValues? ha hb h
    | _ => cases h
  | .float _, _, _, ha, _, _ => by cases ha

theorem orderValues_of_compareValues? : ∀ {as bs : List Value} {o : Ordering},
    (Value.list as).isFloatless = true → (Value.list bs).isFloatless = true →
      Value.compareValues? as bs = some o → Value.orderValues as bs = o
  | [], [], _, _, _, h | [], _ :: _, _, _, _, h | _ :: _, [], _, _, _, h => Option.some.inj h
  | a :: as, b :: bs, o, ha, hb, h => by
    obtain ⟨ha, has⟩ := Value.isFloatless_cons.1 ha
    obtain ⟨hb, hbs⟩ := Value.isFloatless_cons.1 hb
    rw [Value.orderValues]
    rcases Value.compareValues?_cons_eq_some.1 h with ⟨hab, h⟩ | ⟨hab, hne⟩
    · rw [Value.order_of_compare? ha hb hab]
      exact orderValues_of_compareValues? has hbs h
    · rw [Value.order_of_compare? ha hb hab]
      cases o with
      | eq => exact absurd rfl hne
      | _ => rfl

end

/-! ## Two comparisons in a row -/

theorem compare_then {α : Type} [Ord α] [Std.TransOrd α] [Std.LawfulEqOrd α] {x y z : α}
    (hxy : (compare x y).isLE = true) (hyz : (compare y z).isLE = true) :
    compare x z = (compare x y).then (compare y z) := by
  cases h : compare x y with
  | gt => rw [h] at hxy; cases hxy
  | eq =>
    obtain rfl := Std.LawfulEqOrd.eq_of_compare h
    rfl
  | lt => exact Std.TransCmp.lt_of_lt_of_isLE h hyz

mutual

/-- **Comparisons in a row give another one**, which goes up as soon as one of them does. -/
theorem Value.compare?_then : ∀ {a b c : Value} {o o' : Ordering}, a.isFloatless = true →
    b.isFloatless = true → c.isFloatless = true → a.compare? b = some o → b.compare? c = some o' →
      o.isLE = true → o'.isLE = true → a.compare? c = some (o.then o')
  | .null, b, _, _, _, _, _, _, h, _, _, _ | .record _, b, _, _, _, _, _, _, h, _, _, _ => by
    cases b <;> cases h
  | .bool _, b, c, _, _, _, _, _, h, h', ho, ho' => by
    cases b with
    | bool _ =>
      cases c with
      | bool _ =>
        cases h
        cases h'
        exact congrArg some (compare_then ho ho')
      | _ => cases h'
    | _ => cases h
  | .int _, b, c, _, _, _, hb, hc, h, h', ho, ho' => by
    cases b with
    | int _ =>
      cases c with
      | int _ =>
        cases h
        cases h'
        exact congrArg some (compare_then ho ho')
      | float _ => cases hc
      | _ => cases h'
    | float _ => cases hb
    | _ => cases h
  | .string _, b, c, _, _, _, _, _, h, h', ho, ho' => by
    cases b with
    | string _ =>
      cases c with
      | string _ =>
        cases h
        cases h'
        exact congrArg some (compare_then ho ho')
      | _ => cases h'
    | _ => cases h
  | .list as, b, c, _, _, ha, hb, hc, h, h', ho, ho' => by
    cases b with
    | list bs =>
      cases c with
      | list cs => exact compareValues?_then ha hb hc h h' ho ho'
      | _ => cases h'
    | _ => cases h
  | .float _, _, _, _, _, ha, _, _, _, _, _, _ => by cases ha

theorem compareValues?_then : ∀ {as bs cs : List Value} {o o' : Ordering},
    (Value.list as).isFloatless = true → (Value.list bs).isFloatless = true →
      (Value.list cs).isFloatless = true → Value.compareValues? as bs = some o →
        Value.compareValues? bs cs = some o' → o.isLE = true → o'.isLE = true →
          Value.compareValues? as cs = some (o.then o')
  | [], [], _, _, _, _, _, _, h, h', _, _ => by
    cases h
    exact h'
  | [], _ :: _, _ :: _, _, _, _, _, _, h, _, _, _ => by
    cases h
    rfl
  | _, _ :: _, [], _, _, _, _, _, _, h', _, ho' => by
    cases h'
    cases ho'
  | _ :: _, [], _, _, _, _, _, _, h, _, ho, _ => by
    cases h
    cases ho
  | a :: as, b :: bs, c :: cs, o, o', ha, hb, hc, h, h', ho, ho' => by
    obtain ⟨ha, has⟩ := Value.isFloatless_cons.1 ha
    obtain ⟨hb, hbs⟩ := Value.isFloatless_cons.1 hb
    obtain ⟨hc, hcs⟩ := Value.isFloatless_cons.1 hc
    rw [Value.compareValues?_cons_of_isLE ho] at h
    rw [Value.compareValues?_cons_of_isLE ho'] at h'
    rcases h with ⟨hab, h⟩ | ⟨hab, rfl⟩
    · rcases h' with ⟨hbc, h'⟩ | ⟨hbc, rfl⟩
      · have hac := Value.compare?_then ha hb hc hab hbc rfl rfl
        rw [Value.compareValues?, hac]
        exact compareValues?_then has hbs hcs h h' ho ho'
      · have hac := Value.compare?_then ha hb hc hab hbc rfl rfl
        have hlt : o.then .lt = .lt := by
          cases o with
          | gt => cases ho
          | _ => rfl
        rw [Value.compareValues?, hac, hlt]
        rfl
    · have hac : a.compare? c = some .lt := by
        rcases h' with ⟨hbc, -⟩ | ⟨hbc, rfl⟩ <;>
          exact Value.compare?_then ha hb hc hab hbc rfl rfl
      rw [Value.compareValues?, hac]
      rfl

end

namespace Value

/--
**Filters and sorting agree.**  Whenever two values without floats compare, they compare in reverse the
other way round and are sorted as they compare.  Two such comparisons in a row, neither of which goes
down, give a third one, and it does not go down either.
-/
theorem compare?_consistent {a b : Value} (ha : a.isFloatless = true) (hb : b.isFloatless = true) :
    (∀ o, a.compare? b = some o → b.compare? a = some o.swap ∧ a.order b = o) ∧
      ∀ c, c.isFloatless = true → ∀ o o', a.compare? b = some o → b.compare? c = some o' →
        o ≠ .gt → o' ≠ .gt → a.compare? c = some (o.then o') ∧ o.then o' ≠ .gt := by
  refine ⟨fun o h => ⟨?_, order_of_compare? ha hb h⟩, fun c hc o o' h h' ho ho' => ⟨?_, ?_⟩⟩
  · rw [compare?_swap a b, h]
    rfl
  · exact compare?_then ha hb hc h h' (Ordering.isLE_iff_ne_gt.2 ho) (Ordering.isLE_iff_ne_gt.2 ho')
  · cases o with
    | gt => exact absurd rfl ho
    | eq => exact ho'
    | lt => nofun

/-- A record and a null stand behind the elements that decide. -/
theorem compare?_consistent_lists :
    let a : Value := .list [.int 1, .list [.string "x"], .record .empty]
    let b : Value := .list [.int 1, .list [.string "y", .null]]
    let c : Value := .list [.int 2, .null]
    (a.isFloatless = true ∧ b.isFloatless = true ∧ c.isFloatless = true) ∧
      (b.compare? a = some .gt ∧ a.order b = .lt) ∧ a.compare? c = some .lt := by
  intro a b c
  have hab : a.compare? b = some .lt := by decide
  have hbc : b.compare? c = some .lt := by decide
  obtain ⟨hagree, htrans⟩ := compare?_consistent (a := a) (b := b) rfl rfl
  exact ⟨⟨rfl, rfl, rfl⟩, hagree .lt hab, (htrans c rfl .lt .lt hab hbc nofun nofun).1⟩

/-- A filter takes the two zeros for equal, and sorting does not. -/
example :
    let negative : Value := .float (Double.ofParts true 0)
    let positive : Value := .float (Double.ofParts false 0)
    negative.compare? positive = some .eq ∧ negative.order positive = .lt := by decide

end Value

end GraphQuery
