import GraphQuery.Plan.Operator
import GraphQuery.Schema.Basic
/-!
# What makes a form no query

Every error names its cause and carries the form in which it arose.
-/

namespace GraphQuery

inductive BadArgument where
  | notQuery (found : Form)
  | notCount (found : Form)
  | notName (found : Form)
  | notText (found : Form)
  | notIdentifiers (found : Form)
  | noFields
  | noSortKeys
  | badSortKey
  | noBindings
  | badBinding (found : Form)
  | notJsonText
  | badJson
  | notPredicate
  | unequalTuples
  | noOperandList
  | notScalar (field : String)
  | noBounds

namespace BadArgument

def message : BadArgument → String
  | notQuery found => "expected a query form, found " ++ found.kind
  | notCount found => "expected a non-negative integer, found " ++ found.render
  | notName found => "expected a name, found " ++ found.render
  | notText found => "expected text, found " ++ found.render
  | notIdentifiers found => "expected identifiers or one query, found " ++ found.render
  | noFields => "expected at least one field"
  | noSortKeys => "expected at least one sort key"
  | badSortKey => "sort key must be field or (field direction)"
  | noBindings => "expected a non-empty list of (alias source) pairs"
  | badBinding found => "binding must be (alias source), found " ++ found.render
  | notJsonText => "expected a JSON string"
  | badJson => "invalid JSON"
  | notPredicate => "expected a predicate form"
  | unequalTuples => "tuple comparison needs as many operands as fields"
  | noOperandList => "tuple comparison needs an operand list"
  | notScalar field => "expected a scalar operand for '" ++ field ++ "'"
  | noBounds => "expected bounds (hi lo)"

end BadArgument

inductive PlanFault where
  | arity (op expected : String) (actual : Nat)
  | invalidArgument (op : String) (problem : BadArgument)
  | unknownDirection (direction : Form)
  | unknownPredicate (op : String)
  | operandType (field : String) (expected : FieldType) (actual : String)
  | reservedField (field : String)

/-- A cause and the form in which it arose. -/
structure PlanError where
  fault : PlanFault
  node : Form

def PlanFault.message : PlanFault → String
  | arity op expected actual =>
    "'" ++ op ++ "' expects " ++ expected ++ " arguments, got " ++ toString actual
  | invalidArgument op problem => "Invalid argument to '" ++ op ++ "': " ++ problem.message
  | unknownDirection direction => "Unknown sort direction '" ++ direction.render ++ "'"
  | unknownPredicate op => "Unknown filter operator '" ++ op ++ "'"
  | operandType field expected actual =>
    "Operand for field '" ++ field ++ "' must be " ++ expected.name ++ ", got " ++ actual
  | reservedField field => "Field '" ++ field ++ "' is reserved and cannot be assigned"

def PlanError.message (e : PlanError) : String := e.fault.message ++ " in " ++ e.node.render

end GraphQuery
