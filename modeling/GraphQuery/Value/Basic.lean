import GraphQuery.Number.Format
/-!
# Values and items

A value is a scalar, a list or a record; a record is an insertion-ordered map from field names to
values whose `:id` is written once.  An *item* is a record of values.  The operations on records do
not look at the values, so they are stated for any type of values.
-/

namespace GraphQuery

def idField : String := ":id"

def timeField : String := ":time"

def dataField : String := "data"

/-- Named fields in the order in which they were first set. -/
structure Record (V : Type) where
  fields : List (String × V) := []

namespace Record

variable {V : Type}

def empty : Record V := {}

instance : Inhabited (Record V) := ⟨empty⟩

/-! ## Reading -/

def lookup (name : String) : List (String × V) → Option V
  | [] => none
  | (n, v) :: rest => if n = name then some v else lookup name rest

def get? (r : Record V) (name : String) : Option V := lookup name r.fields

def contains (r : Record V) (name : String) : Bool := (r.get? name).isSome

def id? (r : Record V) : Option V := r.get? idField

def hasId (r : Record V) : Bool := r.id?.isSome

def size (r : Record V) : Nat := r.fields.length

def isEmpty (r : Record V) : Bool := r.fields.isEmpty

def names (r : Record V) : List String := r.fields.map Prod.fst

/-! ## Writing -/

def replace? (name : String) (value : V) : List (String × V) → Option (List (String × V))
  | [] => none
  | (n, v) :: rest =>
    if n = name then some ((n, value) :: rest)
    else (replace? name value rest).map ((n, v) :: ·)

def take? (name : String) : List (String × V) → Option (V × List (String × V))
  | [] => none
  | (n, v) :: rest =>
    if n = name then some (v, rest) else (take? name rest).map fun (w, kept) => (w, (n, v) :: kept)

def ofId (id : V) : Record V := ⟨[(idField, id)]⟩

def insertNew (r : Record V) (name : String) (value : V) : Record V :=
  if r.contains name then r else ⟨r.fields ++ [(name, value)]⟩

/-- The record of a field list; a repeated name keeps its first value. -/
def ofFields (fields : List (String × V)) : Record V :=
  fields.foldl (fun r (name, value) => r.insertNew name value) empty

/--
Sets a field, in its place if the name is taken and else at the end.  An identifier that is present
stays as it is.
-/
def set (r : Record V) (name : String) (value : V) : Record V :=
  if name = idField ∧ r.hasId then r
  else match replace? name value r.fields with
    | some fields => ⟨fields⟩
    | none => ⟨r.fields ++ [(name, value)]⟩

def assign? (r : Record V) (name : String) (value : V) : Option (Record V) :=
  if name = idField then none else (replace? name value r.fields).map (⟨·⟩)

/-- The value of a field that may be overwritten: one that is present and not the identifier. -/
def writable? (r : Record V) (name : String) : Option V :=
  if name = idField then none else r.get? name

def remove? (r : Record V) (name : String) : Option (V × Record V) :=
  if name = idField then none else (take? name r.fields).map fun (v, fields) => (v, ⟨fields⟩)

/-- The named fields in the order of the names; a missing field is skipped. -/
def project (r : Record V) (names : List String) : Record V :=
  ⟨names.filterMap fun name => (r.get? name).map fun v => (name, v)⟩

end Record

/-! ## Values -/

inductive Value where
  | null
  | bool (value : Bool)
  | int (value : Int64)
  | float (value : Double)
  | string (text : String)
  | list (values : List Value)
  | record (item : Record Value)

/-- A record of values: what sequences hold and backends answer. -/
abbrev Item := Record Value

inductive Kind where
  | null
  | bool
  | int
  | float
  | string
  | list
  | record
deriving DecidableEq

def Kind.name : Kind → String
  | .null => "Null"
  | .bool => "Bool"
  | .int => "Int"
  | .float => "Float"
  | .string => "String"
  | .list => "List"
  | .record => "Record"

namespace Value

instance : Inhabited Value := ⟨null⟩

def kind : Value → Kind
  | null => .null
  | bool _ => .bool
  | int _ => .int
  | float _ => .float
  | string _ => .string
  | list _ => .list
  | record _ => .record

def isNumeric (v : Value) : Bool := v.kind = .int || v.kind = .float

/-! ### Reading a value as one kind -/

def asBool? : Value → Option Bool
  | bool b => some b
  | _ => none

def asInt? : Value → Option Int64
  | int i => some i
  | _ => none

def asFloat? : Value → Option Double
  | float d => some d
  | int i => some (Double.ofInt i.toInt)
  | _ => none

def asString? : Value → Option String
  | string s => some s
  | _ => none

def asList? : Value → Option (List Value)
  | list vs => some vs
  | _ => none

def asRecord? : Value → Option Item
  | record item => some item
  | _ => none

/-- Null and the containers with nothing in them; `0`, `false` and the empty string are data. -/
def isVoid : Value → Bool
  | null => true
  | list vs => vs.isEmpty
  | record item => item.isEmpty
  | _ => false

def ofNat (n : Nat) : Value := int (Int64.ofNat n)

end Value

namespace Item

/-- A record is itself an item; any other value is taken for an identifier. -/
def ofValue : Value → Item
  | .record item => item
  | v => Record.ofId v

def edge (destination : Value) (time : Int64) (data : Value) : Item :=
  ((Record.ofId destination).set timeField (.int time)).set dataField data

end Item

/-!
## Texts of values

Strings stand between quotes without escapes, lists in brackets, records in braces.
-/

mutual

def Value.render : Value → String
  | .null => "null"
  | .bool b => if b then "true" else "false"
  | .int i => toString i.toInt
  | .float d => FloatFormat.plain.render d
  | .string s => "\"" ++ s ++ "\""
  | .list vs => "[" ++ renderValues vs ++ "]"
  | .record ⟨fields⟩ => "\x7b" ++ renderFields fields ++ "\x7d"
termination_by structural v => v

def renderValues : List Value → String
  | [] => ""
  | [v] => v.render
  | v :: w :: rest => v.render ++ ", " ++ renderValues (w :: rest)
termination_by structural vs => vs

def renderFields : List (String × Value) → String
  | [] => ""
  | [(name, v)] => name ++ ": " ++ v.render
  | (name, v) :: f :: rest => name ++ ": " ++ v.render ++ ", " ++ renderFields (f :: rest)
termination_by structural fields => fields

end

def Item.render (item : Item) : String := (Value.record item).render

end GraphQuery
