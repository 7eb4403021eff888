import GraphQuery.Value.Basic
/-!
# Merging values

Two values of one field are combined: integers add, and become a float where the sum does not fit;
mixed numbers add as floats; strings and lists are joined; booleans are or-ed; records are merged
field by field; null yields to the other side.  Everything else is a conflict.
-/

namespace GraphQuery

structure MergeConflict where
  key : String
  left : String
  right : String
deriving DecidableEq

def MergeConflict.message (c : MergeConflict) : String :=
  "Cannot merge " ++ c.left ++ " with " ++ c.right ++ " at '" ++ c.key ++ "'"

/-- The sum of two integers, as a float if it needs more than 64 bits. -/
def Value.addInts (a b : Int64) : Value :=
  let sum := a.toInt + b.toInt
  if Int64.minValue.toInt ≤ sum ∧ sum ≤ Int64.maxValue.toInt then .int (Int64.ofInt sum)
  else .float (Double.ofInt a.toInt + Double.ofInt b.toInt)

mutual

def Value.merge (field : String) : Value → Value → Except MergeConflict Value
  | .null, right => .ok right
  | left, .null => .ok left
  | .int a, .int b => .ok (.addInts a b)
  | .int a, .float b => .ok (.float (Double.ofInt a.toInt + b))
  | .float a, .int b => .ok (.float (a + Double.ofInt b.toInt))
  | .float a, .float b => .ok (.float (a + b))
  | .string a, .string b => .ok (.string (a ++ b))
  | .list a, .list b => .ok (.list (a ++ b))
  | .bool a, .bool b => .ok (.bool (a || b))
  | .record a, .record ⟨b⟩ => (Item.mergeFields a b).map .record
  | left, right => .error ⟨field, left.kind.name, right.kind.name⟩
termination_by structural _ right => right

/-- Adds fields to an item, combining those it has; its identifier stays. -/
def Item.mergeFields (left : Item) : List (String × Value) → Except MergeConflict Item
  | [] => .ok left
  | (name, value) :: rest =>
    if name = idField ∧ left.hasId then Item.mergeFields left rest
    else
      match left.get? name with
      | none => Item.mergeFields (left.set name value) rest
      | some existing =>
        match Value.merge name existing value with
        | .ok combined => Item.mergeFields (left.set name combined) rest
        | .error conflict => .error conflict
termination_by structural fields => fields

end

def Item.merge (left right : Item) : Except MergeConflict Item := Item.mergeFields left right.fields

end GraphQuery
