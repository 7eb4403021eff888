import GraphQuery.Proofs.Value.Identity
import GraphQuery.Value.Order
/-!
# Laws of the sorting order

The sorting order decides every pair of values one way or the other (`Value.order_swap`), and values
that are equal tie (`Value.order_of_same`).  The converse fails: numbers of different kinds tie when
they are equal as floats, and records tie unless both have identifiers.
-/

namespace GraphQuery

mutual

/-- **A comparison seen from the other side is reversed.** -/
theorem Value.order_swap : ∀ a b : Value, b.order a = (a.order b).swap
  | .null, b => by cases b <;> rfl
  | .bool _, b => by
    cases b with
    | bool _ => exact Std.OrientedOrd.eq_swap
    | _ => rfl
  | .int _, b => by
    cases b with
    | int _ | float _ => exact Std.OrientedOrd.eq_swap
    | _ => rfl
  | .float _, b => by
    cases b with
    | int _ | float _ => exact Std.OrientedOrd.eq_swap
    | _ => rfl
  | .string _, b => by
    cases b with
    | string _ => exact Std.OrientedOrd.eq_swap
    | _ => rfl
  | .list as, b => by
    cases b with
    | list bs => exact orderValues_swap as bs
    | _ => rfl
  | .record ⟨as⟩, b => by
    cases b with
    | record b =>
      rw [Value.order_record, Value.order_record]
      cases ha : Record.id? (⟨as⟩ : Item) with
      | none => cases b.id? <;> rfl
      | some x =>
        cases b.id? with
        | none => rfl
        | some y => exact order_swap_of_mem as (idField, x) (Record.mem_of_lookup ha) y
    | _ => rfl

theorem orderValues_swap : ∀ as bs : List Value,
    Value.orderValues bs as = (Value.orderValues as bs).swap
  | [], [] | [], _ :: _ | _ :: _, [] => rfl
  | a :: as, b :: bs => by
    rw [Value.orderValues, Value.orderValues, Value.order_swap a b]
    cases a.order b with
    | eq => exact orderValues_swap as bs
    | _ => rfl

theorem order_swap_of_mem : ∀ fields : List (String × Value), ∀ f ∈ fields, ∀ b : Value,
    b.order f.2 = (f.2.order b).swap
  | [], _, h, _ => by cases h
  | (n, v) :: rest, f, h, b => by
    rcases List.mem_cons.1 h with rfl | h
    · exact Value.order_swap v b
    · exact order_swap_of_mem rest f h b

end

mutual

/-- **Equal values tie.** -/
theorem Value.order_of_same : ∀ a b : Value, a.same b = true → a.order b = .eq
  | .null, b, h => by cases b <;> first | rfl | cases h
  | .bool _, b, h => by
    cases b with
    | bool _ => rw [of_decide_eq_true h]; exact Std.ReflOrd.compare_self
    | _ => cases h
  | .int _, b, h => by
    cases b with
    | int _ => rw [eq_of_beq h]; exact Std.ReflOrd.compare_self
    | _ => cases h
  | .float _, b, h => by
    cases b with
    | float _ => rw [eq_of_beq h]; exact Std.ReflOrd.compare_self
    | _ => cases h
  | .string _, b, h => by
    cases b with
    | string _ => rw [eq_of_beq h]; exact Std.ReflOrd.compare_self
    | _ => cases h
  | .list as, b, h => by
    cases b with
    | list bs => exact orderValues_of_same as bs h
    | _ => cases h
  | .record ⟨as⟩, b, h => by
    cases b with
    | record b =>
      have hs := sameItem_eq ⟨as⟩ b
      rw [Item.same, h] at hs
      rw [Value.order_record]
      cases ha : Record.id? (⟨as⟩ : Item) with
      | none => cases b.id? <;> rfl
      | some x =>
        cases hb : b.id? with
        | none => rfl
        | some y =>
          rw [ha, hb] at hs
          exact order_of_same_of_mem as (idField, x) (Record.mem_of_lookup ha) y hs.symm
    | _ => cases h

theorem orderValues_of_same : ∀ as bs : List Value, sameValues as bs = true →
    Value.orderValues as bs = .eq
  | [], [], _ => rfl
  | [], _ :: _, h | _ :: _, [], h => by cases h
  | a :: as, b :: bs, h => by
    rw [sameValues, Bool.and_eq_true] at h
    rw [Value.orderValues, Value.order_of_same a b h.1]
    exact orderValues_of_same as bs h.2

theorem order_of_same_of_mem : ∀ fields : List (String × Value), ∀ f ∈ fields, ∀ b : Value,
    f.2.same b = true → f.2.order b = .eq
  | [], _, h, _, _ => by cases h
  | (n, v) :: rest, f, h, b, hs => by
    rcases List.mem_cons.1 h with rfl | h
    · exact Value.order_of_same v b hs
    · exact order_of_same_of_mem rest f h b hs

end

namespace Value

/-! ## Kinds -/

theorem order_of_rank_lt {a b : Value} (h : a.rank < b.rank) : a.order b = .lt := by
  cases a <;> cases b <;> first | rfl | simp [rank] at h

theorem rank_le_of_order {a b : Value} (h : (a.order b).isLE = true) : a.rank ≤ b.rank := by
  refine Nat.le_of_not_lt fun hlt => ?_
  rw [order_swap b a, order_of_rank_lt hlt] at h
  cases h

end Value

end GraphQuery
