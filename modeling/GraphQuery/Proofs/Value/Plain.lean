import GraphQuery.Proofs.Value.Knots
/-!
# Values without floats and records

The sorting order ties different records, and numbers of different kinds that are equal as floats,
so in general it is not transitive.  On values that hold neither floats nor records, at any depth,
it is a linear order: they are never knotted, so it is transitive (`Value.order_trans`), and it ties
nothing but what is the same (`Value.eq_of_order`), which is then also what the equality of values
says (`Value.beq_iff_eq`).
-/

namespace GraphQuery

mutual

/-- Whether a value holds neither floats nor records, at any depth. -/
def Value.isPlain : Value → Bool
  | .list vs => elementsPlain vs
  | .float _ => false
  | .record _ => false
  | _ => true
termination_by structural v => v

def elementsPlain : List Value → Bool
  | [] => true
  | v :: rest => v.isPlain && elementsPlain rest
termination_by structural vs => vs

end

/-! ## Equality -/

mutual

/-- **A plain value equals only itself.** -/
theorem Value.eq_of_same : ∀ {a b : Value}, a.isPlain = true → a.same b = true → a = b
  | .null, b, _, h => by
    cases b with
    | null => rfl
    | _ => cases h
  | .bool _, b, _, h => by
    cases b with
    | bool _ => exact congrArg Value.bool (eq_of_beq h)
    | _ => cases h
  | .int _, b, _, h => by
    cases b with
    | int _ => exact congrArg Value.int (eq_of_beq h)
    | _ => cases h
  | .string _, b, _, h => by
    cases b with
    | string _ => exact congrArg Value.string (eq_of_beq h)
    | _ => cases h
  | .list as, b, hp, h => by
    cases b with
    | list bs => exact congrArg Value.list (eq_of_sameValues hp h)
    | _ => cases h
  | .float _, _, hp, _ | .record _, _, hp, _ => by cases hp

theorem eq_of_sameValues : ∀ {as bs : List Value}, elementsPlain as = true →
    sameValues as bs = true → as = bs
  | [], [], _, _ => rfl
  | [], _ :: _, _, h | _ :: _, [], _, h => by cases h
  | a :: as, b :: bs, hp, h => by
    rw [elementsPlain, Bool.and_eq_true] at hp
    rw [sameValues, Bool.and_eq_true] at h
    rw [Value.eq_of_same hp.1 h.1, eq_of_sameValues hp.2 h.2]

end

namespace Value

theorem beq_iff_eq {a b : Value} (ha : a.isPlain = true) : (a == b) = true ↔ a = b :=
  ⟨eq_of_same ha, fun h => h ▸ same_self a⟩

theorem order_self (a : Value) : a.order a = .eq := order_of_same a a (same_self a)

end Value

mutual

/-- **Plain values that tie are the same.** -/
theorem Value.eq_of_order : ∀ {a b : Value}, a.isPlain = true → b.isPlain = true →
    a.order b = .eq → a = b
  | .null, b, _, _, h => by
    cases b with
    | null => rfl
    | _ => cases h
  | .bool _, b, _, _, h => by
    cases b with
    | bool _ => exact congrArg Value.bool (Std.LawfulEqOrd.eq_of_compare h)
    | _ => cases h
  | .int _, b, _, hb, h => by
    cases b with
    | int _ => exact congrArg Value.int (Int64.toInt_inj.1 (Std.LawfulEqOrd.eq_of_compare h))
    | float _ => cases hb
    | _ => cases h
  | .string _, b, _, _, h => by
    cases b with
    | string _ => exact congrArg Value.string (Std.LawfulEqOrd.eq_of_compare h)
    | _ => cases h
  | .list as, b, ha, hb, h => by
    cases b with
    | list bs => exact congrArg Value.list (eq_of_orderValues ha hb h)
    | _ => cases h
  | .float _, _, ha, _, _ | .record _, _, ha, _, _ => by cases ha

theorem eq_of_orderValues : ∀ {as bs : List Value}, elementsPlain as = true →
    elementsPlain bs = true → Value.orderValues as bs = .eq → as = bs
  | [], [], _, _, _ => rfl
  | [], _ :: _, _, _, h | _ :: _, [], _, _, h => by cases h
  | a :: as, b :: bs, ha, hb, h => by
    rw [elementsPlain, Bool.and_eq_true] at ha hb
    rw [Value.orderValues] at h
    cases hab : a.order b with
    | eq =>
      rw [hab] at h
      rw [Value.eq_of_order ha.1 hb.1 hab, eq_of_orderValues ha.2 hb.2 h]
    | _ => rw [hab] at h; cases h

end

/-! ## Transitivity -/

theorem Value.not_knot_of_isPlain {a b c : Value} (h : a.Knot b c) :
    ¬ (a.isPlain = true ∧ b.isPlain = true ∧ c.isPlain = true) := by
  induction h with
  | rounded => exact fun ⟨_, hb, _⟩ => by cases hb
  | unidentified | identified => exact fun ⟨ha, _, _⟩ => by cases ha
  | element _ _ _ _ ih =>
    simp only [Value.isPlain, elementsPlain, Bool.and_eq_true]
    exact fun ⟨ha, hb, hc⟩ => ih ⟨ha.1, hb.1, hc.1⟩
  | behind _ _ _ _ ih =>
    simp only [Value.isPlain, elementsPlain, Bool.and_eq_true]
    exact fun ⟨ha, hb, hc⟩ => ih ⟨ha.2, hb.2, hc.2⟩
  | turn _ ih => exact fun ⟨hb, hc, ha⟩ => ih ⟨ha, hb, hc⟩

/-- **The order of plain values is transitive.** -/
theorem Value.order_trans {a b c : Value} (ha : a.isPlain = true) (hb : b.isPlain = true)
    (hc : c.isPlain = true) (hab : (a.order b).isLE = true) (hbc : (b.order c).isLE = true) :
    (a.order c).isLE = true :=
  order_trans_of_not_knot (fun hk => not_knot_of_isPlain hk ⟨ha, hb, hc⟩) hab hbc

theorem Value.order_lt_of_isLE_of_lt {a b c : Value} (ha : a.isPlain = true)
    (hb : b.isPlain = true) (hc : c.isPlain = true) (hab : (a.order b).isLE = true)
    (hbc : b.order c = .lt) : a.order c = .lt := by
  have hle := order_trans ha hb hc hab (Ordering.isLE_of_eq_lt hbc)
  cases ho : a.order c with
  | lt => rfl
  | gt => rw [ho] at hle; cases hle
  | eq =>
    obtain rfl := eq_of_order ha hc ho
    rw [order_swap b a, hbc] at hab
    cases hab

end GraphQuery
