import GraphQuery.Value.Basic
/-!
# Equality by identifier

Two items that carry identifiers are equal when their identifiers are; otherwise they are equal when
their fields are, in order.  Floats are equal by bit pattern and numbers of different kinds never
are.  `sameItem_eq` states the rule for items as a whole.
-/

namespace GraphQuery

mutual

def Value.same : Value → Value → Bool
  | .null, .null => true
  | .bool a, .bool b => a == b
  | .int a, .int b => a == b
  | .float a, .float b => a == b
  | .string a, .string b => a == b
  | .list a, .list b => sameValues a b
  | .record ⟨a⟩, .record ⟨b⟩ =>
    match Record.lookup idField b with
    | some id => (sameId? a id).getD (sameFields a b)
    | none => sameFields a b
  | _, _ => false
termination_by structural v => v

def sameValues : List Value → List Value → Bool
  | [], [] => true
  | a :: as, b :: bs => a.same b && sameValues as bs
  | _, _ => false
termination_by structural vs => vs

def sameFields : List (String × Value) → List (String × Value) → Bool
  | [], [] => true
  | (m, a) :: as, (n, b) :: bs => m == n && a.same b && sameFields as bs
  | _, _ => false
termination_by structural fields => fields

def sameId? : List (String × Value) → Value → Option Bool
  | [], _ => none
  | (n, v) :: rest, id => if n = idField then some (v.same id) else sameId? rest id
termination_by structural fields => fields

end

instance : BEq Value := ⟨Value.same⟩

/-- Equality of items: by identifier if both have one, else field by field. -/
def Item.same (a b : Item) : Bool := (Value.record a).same (.record b)

instance : BEq Item := ⟨Item.same⟩

theorem sameId?_eq (fields : List (String × Value)) (id : Value) :
    sameId? fields id = (Record.lookup idField fields).map (·.same id) := by
  induction fields with
  | nil => rfl
  | cons f rest ih =>
    obtain ⟨n, v⟩ := f
    by_cases h : n = idField <;> simp [sameId?, Record.lookup, h, ih]

theorem sameItem_eq (a b : Item) :
    a.same b = match a.id?, b.id? with
      | some x, some y => x.same y
      | _, _ => sameFields a.fields b.fields := by
  obtain ⟨a⟩ := a
  obtain ⟨b⟩ := b
  simp only [Item.same, Value.same, Record.id?, Record.get?, sameId?_eq]
  cases Record.lookup idField a <;> cases Record.lookup idField b <;> rfl

end GraphQuery
