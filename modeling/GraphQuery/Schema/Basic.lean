import GraphQuery.Value.Basic
/-!
# Schemas

A schema declares types of item fields, which decide how filter operands are read.  The identifier
and the time of an edge are integers in every schema.
-/

namespace GraphQuery

inductive FieldType where
  | int
  | float
  | string
  | bool
deriving DecidableEq

namespace FieldType

def all : List FieldType := [int, float, string, bool]

def name : FieldType → String
  | int => "Int"
  | float => "Float"
  | string => "String"
  | bool => "Bool"

def ofName? (text : String) : Option FieldType := all.find? (·.name = text)

end FieldType

inductive SchemaFault where
  | declaredTwice (name : String)
  | wrongReserved (name : String) (expected : FieldType)
deriving DecidableEq

def SchemaFault.message : SchemaFault → String
  | declaredTwice name => "Field '" ++ name ++ "' declared twice"
  | wrongReserved name expected =>
    "Reserved field '" ++ name ++ "' must be " ++ expected.name

/-- The declared types of fields. -/
structure Schema where
  fields : List (String × FieldType)

namespace Schema

def reserved : List (String × FieldType) := [(idField, .int), (timeField, .int)]

def default : Schema := ⟨reserved⟩

instance : Inhabited Schema := ⟨default⟩

def fieldType? (s : Schema) (name : String) : Option FieldType := s.fields.lookup name

def isReserved (name : String) : Bool := name = idField || name = timeField

def check (seen : List String) : List (String × FieldType) → Except SchemaFault Unit
  | [] => .ok ()
  | (name, type) :: rest =>
    if seen.contains name then .error (.declaredTwice name)
    else if isReserved name && type != .int then .error (.wrongReserved name .int)
    else check (name :: seen) rest

/-- The schema of some declarations: no name twice, and reserved names only with their type. -/
def ofFields (declared : List (String × FieldType)) : Except SchemaFault Schema :=
  (check [] declared).map fun _ =>
    ⟨reserved ++ declared.filter fun f => !isReserved f.1⟩

end Schema

end GraphQuery
