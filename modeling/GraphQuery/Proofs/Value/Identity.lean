import GraphQuery.Proofs.Value.Everywhere
import GraphQuery.Value.Equality
/-!
# Equality of items

Every value equals itself, and two items with the same identifier are equal whatever else they hold
(`Item.beq_of_id?`).
-/

namespace GraphQuery

theorem sameFields_self : ∀ {fields : List (String × Value)},
    (∀ f ∈ fields, f.2.same f.2 = true) → sameFields fields fields = true
  | [], _ => rfl
  | (n, v) :: rest, h => by
    rw [sameFields, sameFields_self fun f hf => h f (List.mem_cons_of_mem _ hf)]
    simp [h (n, v) List.mem_cons_self]

theorem same_record_self {fields : List (String × Value)}
    (h : ∀ f ∈ fields, f.2.same f.2 = true) :
    (Value.record ⟨fields⟩).same (.record ⟨fields⟩) = true := by
  have hi := sameItem_eq ⟨fields⟩ ⟨fields⟩
  rw [Item.same] at hi
  rw [hi]
  cases hid : (⟨fields⟩ : Item).id? with
  | none => exact sameFields_self h
  | some id => exact h (idField, id) (Record.mem_of_lookup hid)

mutual

/-- **Every value equals itself.** -/
theorem Value.same_self : ∀ v : Value, v.same v = true
  | .null => rfl
  | .bool a => by simp [Value.same]
  | .int a => by simp [Value.same]
  | .float a => by simp [Value.same]
  | .string a => by simp [Value.same]
  | .list vs => sameValues_self vs
  | .record ⟨fields⟩ => same_record_self (same_self_of_mem fields)

theorem sameValues_self : ∀ vs : List Value, sameValues vs vs = true
  | [] => rfl
  | v :: rest => by rw [sameValues, Value.same_self v, sameValues_self rest]; rfl

theorem same_self_of_mem : ∀ fields : List (String × Value), ∀ f ∈ fields, f.2.same f.2 = true
  | [], _, h => by cases h
  | (n, v) :: rest, f, h => by
    rcases List.mem_cons.1 h with rfl | h
    · exact Value.same_self v
    · exact same_self_of_mem rest f h

end

theorem Item.beq_self (item : Item) : (item == item) = true := Value.same_self (.record item)

theorem Item.beq_of_id? {a b : Item} {id : Value} (ha : a.id? = some id) (hb : b.id? = some id) :
    (a == b) = true := by
  show a.same b = true
  rw [sameItem_eq, ha, hb]
  exact Value.same_self id

end GraphQuery
