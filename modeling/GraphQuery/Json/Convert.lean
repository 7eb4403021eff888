import GraphQuery.Json.Basic
import GraphQuery.Value.Basic
/-!
# Values as JSON documents

Records become objects, whose members are sorted; objects become records in the order of their
members.  A float without a JSON text becomes null.
-/

namespace GraphQuery

mutual

def Value.toJson : Value → Json
  | .null => .null
  | .bool b => .bool b
  | .int i => .int i
  | .float d => if d.isFinite then .float d else .null
  | .string s => .string s
  | .list vs => .array (valuesToJson vs)
  | .record ⟨fields⟩ => Json.ofMembers (fieldsToJson fields)
termination_by structural v => v

def valuesToJson : List Value → List Json
  | [] => []
  | v :: rest => v.toJson :: valuesToJson rest
termination_by structural vs => vs

def fieldsToJson : List (String × Value) → List (String × Json)
  | [] => []
  | (name, v) :: rest => (name, v.toJson) :: fieldsToJson rest
termination_by structural fields => fields

end

mutual

def Value.ofJson : Json → Value
  | .null => .null
  | .bool b => .bool b
  | .int i => .int i
  | .float d => .float d
  | .string s => .string s
  | .array js => .list (valuesOfJson js)
  | .object members => .record (Record.ofFields (fieldsOfJson members))
termination_by structural j => j

def valuesOfJson : List Json → List Value
  | [] => []
  | j :: rest => Value.ofJson j :: valuesOfJson rest
termination_by structural js => js

def fieldsOfJson : List (String × Json) → List (String × Value)
  | [] => []
  | (name, j) :: rest => (name, Value.ofJson j) :: fieldsOfJson rest
termination_by structural ms => ms

end

def Item.toJson (item : Item) : Json := (Value.record item).toJson

def Item.ofMembers (members : List (String × Json)) : Item :=
  Record.ofFields (fieldsOfJson members)

end GraphQuery
