import GraphQuery.Proofs.Number.Rounding
import GraphQuery.Proofs.Value.Order
/-!
# Where the sorting order turns

The sorting order is not transitive.  Two integers may round to one float, which then ties with both
of them, and a record without an identifier ties with all records.  From there the order may turn:
a value lies at or below the next one, that one at or below a third, and the third below the first
(`Value.Knot`).  `Value.order_trans_iff` says that nothing else keeps the order from being
transitive.
-/

namespace GraphQuery

namespace Value

/--
Three values, each at or below the next one and the last one at or below the first, which do not all
tie.
-/
inductive Knot : Value → Value → Value → Prop where
  /-- The lower one of two integers follows the float that both of them round to. -/
  | rounded {i j : Int64} (lower : j < i) (same : widen j = widen i) :
      Knot (int i) (float (widen i)) (int j)
  /-- The lower one of two identified records follows one without an identifier. -/
  | unidentified {a b c : Item} {x y : Value} (ha : a.id? = some x) (hb : b.id? = none)
      (hc : c.id? = some y) (lower : y.order x = .lt) : Knot (record a) (record b) (record c)
  | identified {a b c : Item} {x y z : Value} (ha : a.id? = some x) (hb : b.id? = some y)
      (hc : c.id? = some z) (knot : Knot x y z) : Knot (record a) (record b) (record c)
  /-- Elements of three lists are knotted, and where two of them tie the rest does not undo it. -/
  | element {x y z : Value} {as bs cs : List Value} (knot : Knot x y z)
      (hab : x.order y = .eq → (orderValues as bs).isLE = true)
      (hbc : y.order z = .eq → (orderValues bs cs).isLE = true)
      (hca : z.order x = .eq → (orderValues cs as).isLE = true) :
      Knot (list (x :: as)) (list (y :: bs)) (list (z :: cs))
  | behind {x y z : Value} {as bs cs : List Value} (hab : x.order y = .eq) (hbc : y.order z = .eq)
      (hca : z.order x = .eq) (knot : Knot (list as) (list bs) (list cs)) :
      Knot (list (x :: as)) (list (y :: bs)) (list (z :: cs))
  | turn {a b c : Value} (knot : Knot a b c) : Knot b c a

structure Circles (a b c : Value) : Prop where
  first : (a.order b).isLE = true
  second : (b.order c).isLE = true
  third : (c.order a).isLE = true
  strict : ¬ (a.order b = .eq ∧ b.order c = .eq ∧ c.order a = .eq)

theorem Circles.turn {a b c : Value} (h : Circles a b c) : Circles b c a :=
  ⟨h.second, h.third, h.first, fun ⟨hbc, hca, hab⟩ => h.strict ⟨hab, hbc, hca⟩⟩

/-! ## Lists -/

theorem isLE_orderValues_cons {x y : Value} {as bs : List Value} :
    (orderValues (x :: as) (y :: bs)).isLE = true ↔
      (x.order y).isLE = true ∧ (x.order y = .eq → (orderValues as bs).isLE = true) := by
  rw [orderValues]
  cases x.order y <;> simp

theorem orderValues_cons_eq {x y : Value} {as bs : List Value} :
    orderValues (x :: as) (y :: bs) = .eq ↔ x.order y = .eq ∧ orderValues as bs = .eq := by
  rw [orderValues]
  cases x.order y <;> simp

/-! ## Knots turn the order -/

/-- **Knotted values follow one another in a circle.** -/
theorem Knot.circles {a b c : Value} (h : Knot a b c) : Circles a b c := by
  induction h with
  | @rounded i j lower same =>
    have hij : compare (widen i).totalKey (widen i).totalKey = .eq := Std.ReflCmp.compare_self
    have hup : (int i).order (float (widen i)) = .eq := hij
    have hdown : (float (widen i)).order (int j) = .eq := by
      rw [← hij]
      show compare (widen i).totalKey (widen j).totalKey = _
      rw [same]
    have hlow : (int j).order (int i) = .lt :=
      Int.compare_eq_lt.2 (Int64.lt_iff_toInt_lt.1 lower)
    exact ⟨by rw [hup]; rfl, by rw [hdown]; rfl, by rw [hlow]; rfl, fun h => by simp [hlow] at h⟩
  | unidentified ha hb hc lower =>
    constructor <;> simp [order_record, ha, hb, hc, lower]
  | identified ha hb hc _ ih =>
    constructor
    · simpa only [order_record, ha, hb] using ih.first
    · simpa only [order_record, hb, hc] using ih.second
    · simpa only [order_record, hc, ha] using ih.third
    · simpa only [order_record, ha, hb, hc] using ih.strict
  | element _ hab hbc hca ih =>
    refine ⟨isLE_orderValues_cons.2 ⟨ih.first, hab⟩, isLE_orderValues_cons.2 ⟨ih.second, hbc⟩,
      isLE_orderValues_cons.2 ⟨ih.third, hca⟩, fun ⟨h1, h2, h3⟩ => ih.strict ?_⟩
    exact ⟨(orderValues_cons_eq.1 h1).1, (orderValues_cons_eq.1 h2).1, (orderValues_cons_eq.1 h3).1⟩
  | behind hab hbc hca _ ih =>
    refine ⟨isLE_orderValues_cons.2 ⟨by rw [hab]; rfl, fun _ => ih.first⟩,
      isLE_orderValues_cons.2 ⟨by rw [hbc]; rfl, fun _ => ih.second⟩,
      isLE_orderValues_cons.2 ⟨by rw [hca]; rfl, fun _ => ih.third⟩, fun ⟨h1, h2, h3⟩ => ?_⟩
    exact ih.strict
      ⟨(orderValues_cons_eq.1 h1).2, (orderValues_cons_eq.1 h2).2, (orderValues_cons_eq.1 h3).2⟩
  | turn _ ih => exact ih.turn

/-! ## Nothing else does -/

theorem eq_of_circle {α : Type} (cmp : α → α → Ordering) [Std.TransCmp cmp] {x y z : α}
    (hxy : (cmp x y).isLE = true) (hyz : (cmp y z).isLE = true) (hzx : (cmp z x).isLE = true) :
    cmp x y = .eq ∧ cmp y z = .eq ∧ cmp z x = .eq :=
  ⟨Std.OrientedCmp.isLE_antisymm hxy (Std.TransCmp.isLE_trans hyz hzx),
    Std.OrientedCmp.isLE_antisymm hyz (Std.TransCmp.isLE_trans hzx hxy),
    Std.OrientedCmp.isLE_antisymm hzx (Std.TransCmp.isLE_trans hxy hyz)⟩

theorem Circles.rank_eq {a b c : Value} (h : Circles a b c) :
    a.rank = b.rank ∧ b.rank = c.rank := by
  have hab := rank_le_of_order h.first
  have hbc := rank_le_of_order h.second
  have hca := rank_le_of_order h.third
  omega

instance : Std.TransCmp Double.totalCompare :=
  inferInstanceAs (Std.TransCmp (compareOn Double.totalKey))

theorem Circles.knot_of_float {i j : Int64} {d : Double}
    (h : Circles (int i) (float d) (int j)) : Knot (int i) (float d) (int j) := by
  have hdown : ((widen j).totalCompare (widen i)).isLE = true := by
    have hle := Std.isLE_compare.1 (show (compare j.toInt i.toInt).isLE = true from h.third)
    exact Std.isLE_compare.2 (Double.totalKey_ofInt_mono hle)
  obtain ⟨hi, hj, -⟩ := eq_of_circle Double.totalCompare h.first h.second hdown
  have hlow : (int j).order (int i) = .lt := by
    cases ho : (int j).order (int i) with
    | lt => rfl
    | eq => exact absurd ⟨hi, hj, ho⟩ h.strict
    | gt => exact absurd h.third (by rw [ho]; decide)
  obtain rfl := Double.totalCompare_eq_iff.1 hi
  exact .rounded (Int64.lt_iff_toInt_lt.2 (Int.compare_eq_lt.1 hlow))
    (Double.totalCompare_eq_iff.1 hj).symm

/-- **Numbers are knotted if they follow one another in a circle.** -/
theorem Circles.knot_of_numbers {a b c : Value} (hr : a.rank = 2) (h : Circles a b c) :
    Knot a b c := by
  obtain ⟨hab, hbc⟩ := h.rank_eq
  rw [hr] at hab
  rw [← hab] at hbc
  -- two integers and a float are the only numbers whose comparisons do not all go by one order
  cases a with
  | int i =>
    cases b with
    | int j =>
      cases c with
      | int k =>
        exact absurd (eq_of_circle (compareOn Int64.toInt) h.first h.second h.third)
          h.strict
      | float d => exact h.turn.knot_of_float.turn.turn
      | _ => cases hbc
    | float d =>
      cases c with
      | int k => exact h.knot_of_float
      | float e =>
        exact absurd (eq_of_circle Double.totalCompare h.first h.second h.third)
          h.strict
      | _ => cases hbc
    | _ => cases hab
  | float d =>
    cases b with
    | int j =>
      cases c with
      | int k => exact h.turn.turn.knot_of_float.turn
      | float e =>
        exact absurd (eq_of_circle Double.totalCompare h.first h.second h.third)
          h.strict
      | _ => cases hbc
    | float e =>
      cases c with
      | int _ | float _ =>
        exact absurd (eq_of_circle Double.totalCompare h.first h.second h.third)
          h.strict
      | _ => cases hbc
    | _ => cases hab
  | _ => cases hr

theorem Circles.knot_of_unidentified {a b c : Item} (hb : b.id? = none)
    (h : Circles (record a) (record b) (record c)) : Knot (record a) (record b) (record c) := by
  have hab : (record a).order (record b) = .eq := by
    rw [order_record, hb]
    cases a.id? <;> rfl
  have hbc : (record b).order (record c) = .eq := by rw [order_record, hb]
  have hca : (record c).order (record a) = .lt := by
    cases ho : (record c).order (record a) with
    | lt => rfl
    | eq => exact absurd ⟨hab, hbc, ho⟩ h.strict
    | gt => exact absurd h.third (by rw [ho]; decide)
  rw [order_record] at hca
  cases hc : c.id? with
  | none => rw [hc] at hca; cases hca
  | some y =>
    cases ha : a.id? with
    | none => rw [hc, ha] at hca; cases hca
    | some x =>
      rw [hc, ha] at hca
      exact .unidentified ha hb hc hca

theorem Circles.knot_of_records {a b c : Item}
    (hid : ∀ x y z, a.id? = some x → Circles x y z → Knot x y z)
    (h : Circles (record a) (record b) (record c)) : Knot (record a) (record b) (record c) := by
  cases ha : a.id? with
  | none => exact (h.turn.turn.knot_of_unidentified ha).turn
  | some x =>
    cases hb : b.id? with
    | none => exact h.knot_of_unidentified hb
    | some y =>
      cases hc : c.id? with
      | none => exact (h.turn.knot_of_unidentified hc).turn.turn
      | some z =>
        have hxy : (record a).order (record b) = x.order y := by rw [order_record, ha, hb]
        have hyz : (record b).order (record c) = y.order z := by rw [order_record, hb, hc]
        have hzx : (record c).order (record a) = z.order x := by rw [order_record, hc, ha]
        exact .identified ha hb hc (hid x y z ha
          ⟨hxy ▸ h.first, hyz ▸ h.second, hzx ▸ h.third, hxy ▸ hyz ▸ hzx ▸ h.strict⟩)

end Value

mutual

/-- **Values that follow one another in a circle are knotted.** -/
theorem Value.Circles.knot : ∀ {a b c : Value}, a.Circles b c → a.Knot b c
  | .int _, _, _, h | .float _, _, _, h => h.knot_of_numbers rfl
  | .null, b, c, h => by
    obtain ⟨hab, hbc⟩ := h.rank_eq
    cases b with
    | null =>
      cases c with
      | null => exact absurd ⟨rfl, rfl, rfl⟩ h.strict
      | _ => cases hbc
    | _ => cases hab
  | .bool _, b, c, h => by
    obtain ⟨hab, hbc⟩ := h.rank_eq
    cases b with
    | bool _ =>
      cases c with
      | bool _ =>
        exact absurd (Value.eq_of_circle (compare (α := Bool)) h.first h.second h.third)
          h.strict
      | _ => cases hbc
    | _ => cases hab
  | .string _, b, c, h => by
    obtain ⟨hab, hbc⟩ := h.rank_eq
    cases b with
    | string _ =>
      cases c with
      | string _ =>
        exact absurd (Value.eq_of_circle (compare (α := String)) h.first h.second h.third)
          h.strict
      | _ => cases hbc
    | _ => cases hab
  | .list as, b, c, h => by
    obtain ⟨hab, hbc⟩ := h.rank_eq
    cases b with
    | list bs =>
      cases c with
      | list cs => exact circles_list_knot h
      | _ => cases hbc
    | _ => cases hab
  | .record ⟨fields⟩, b, c, h => by
    obtain ⟨hab, hbc⟩ := h.rank_eq
    cases b with
    | record b =>
      cases c with
      | record c =>
        exact h.knot_of_records fun x _ _ hx hc =>
          circles_knot_of_mem fields (idField, x) (Record.mem_of_lookup hx) hc
      | _ => cases hbc
    | _ => cases hab

theorem circles_list_knot : ∀ {as bs cs : List Value},
    Value.Circles (.list as) (.list bs) (.list cs) → Value.Knot (.list as) (.list bs) (.list cs)
  | [], [], [], h => absurd ⟨rfl, rfl, rfl⟩ h.strict
  | [], [], _ :: _, h => absurd h.third Bool.false_ne_true
  | [], _ :: _, [], h => absurd h.second Bool.false_ne_true
  | [], _ :: _, _ :: _, h => absurd h.third Bool.false_ne_true
  | _ :: _, [], _, h => absurd h.first Bool.false_ne_true
  | _ :: _, _ :: _, [], h => absurd h.second Bool.false_ne_true
  | x :: as, y :: bs, z :: cs, h => by
    obtain ⟨hxy, hab⟩ := Value.isLE_orderValues_cons.1 h.first
    obtain ⟨hyz, hbc⟩ := Value.isLE_orderValues_cons.1 h.second
    obtain ⟨hzx, hca⟩ := Value.isLE_orderValues_cons.1 h.third
    by_cases ht : x.order y = .eq ∧ y.order z = .eq ∧ z.order x = .eq
    · obtain ⟨txy, tyz, tzx⟩ := ht
      refine .behind txy tyz tzx (circles_list_knot ⟨hab txy, hbc tyz, hca tzx, fun hs => ?_⟩)
      exact h.strict ⟨Value.orderValues_cons_eq.2 ⟨txy, hs.1⟩,
        Value.orderValues_cons_eq.2 ⟨tyz, hs.2.1⟩, Value.orderValues_cons_eq.2 ⟨tzx, hs.2.2⟩⟩
    · exact .element (Value.Circles.knot ⟨hxy, hyz, hzx, ht⟩) hab hbc hca

theorem circles_knot_of_mem : ∀ fields : List (String × Value), ∀ f ∈ fields, ∀ {b c : Value},
    f.2.Circles b c → f.2.Knot b c
  | [], _, h, _, _, _ => by cases h
  | (n, v) :: rest, f, h, _, _, hc => by
    rcases List.mem_cons.1 h with rfl | h
    · exact Value.Circles.knot hc
    · exact circles_knot_of_mem rest f h hc

end

namespace Value

/-! ## The order of three values -/

theorem order_trans_of_not_knot {a b c : Value} (h : ¬ Knot a b c) (hab : (a.order b).isLE = true)
    (hbc : (b.order c).isLE = true) : (a.order c).isLE = true := by
  cases ho : c.order a with
  | lt => exact absurd (Circles.knot ⟨hab, hbc, by rw [ho]; rfl, by simp [ho]⟩) h
  | _ => rw [order_swap c a, ho]; rfl

/-- **The order is reversible, and it is transitive except round a knot.** -/
theorem order_trans_iff (a b c : Value) :
    b.order a = (a.order b).swap ∧
      (((a.order b).isLE = true → (b.order c).isLE = true → (a.order c).isLE = true) ↔
        ¬ (c.order a = .lt ∧ Knot a b c)) := by
  refine ⟨order_swap a b, fun htrans ⟨hlt, hknot⟩ => ?_, fun hfree hab hbc => ?_⟩
  · have hle := htrans hknot.circles.first hknot.circles.second
    rw [order_swap c a, hlt] at hle
    cases hle
  · by_cases hknot : Knot a b c
    · rw [order_swap c a]
      cases ho : c.order a with
      | lt => exact absurd ⟨ho, hknot⟩ hfree
      | _ => rfl
    · exact order_trans_of_not_knot hknot hab hbc

/-- The float `2 ^ 53` ties with that integer and with the next one. -/
theorem order_rounded :
    let low : Value := .int (2 ^ 53)
    let high : Value := .int (2 ^ 53 + 1)
    let mid : Value := .float ⟨0x4340000000000000⟩
    high.order mid = .eq ∧ mid.order low = .eq ∧ high.order low = .gt := by decide +kernel

end Value

end GraphQuery
