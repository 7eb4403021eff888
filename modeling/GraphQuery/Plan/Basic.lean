import GraphQuery.Json.Basic
import GraphQuery.Value.Basic
/-!
# Query plans

A plan is a query whose operators and operands have been checked.  Operators that rewrite one
sequence of items at a time are *transforms*; operators that evaluate all their operands apart and
bring the results together are *combinations*.
-/

namespace GraphQuery

/-! ## Predicates -/

inductive Comparison where
  | eq
  | ne
  | lt
  | le
  | gt
  | ge
deriving DecidableEq

namespace Comparison

def all : List Comparison := [eq, ne, lt, le, gt, ge]

def symbol : Comparison → String
  | eq => "="
  | ne => "!="
  | lt => "<"
  | le => "<="
  | gt => ">"
  | ge => ">="

def ofSymbol? (text : String) : Option Comparison := all.find? (·.symbol = text)

end Comparison

/-- A condition on one item. -/
inductive Predicate where
  | compare (op : Comparison) (fields : List String) (operands : List Value)
  | range (field : String) (hi lo : Value)
  | inSet (field : String) (members : List Value)
  | contains (field text : String)
  | beginsWith (field text : String)

/-! ## Transforms -/

inductive Direction where
  | ascending
  | descending
deriving DecidableEq

namespace Direction

def keyword : Direction → String
  | ascending => "asc"
  | descending => "desc"

def ofKeyword? (text : String) : Option Direction :=
  [ascending, descending].find? (·.keyword = text)

end Direction

structure SortKey where
  field : String
  direction : Direction
deriving DecidableEq

structure Binding where
  name : String
  source : String
deriving DecidableEq

inductive Transform where
  | limit (count offset : Nat)
  | sample (count : Nat)
  | reverse
  | count
  | filter (predicate : Predicate)
  | project (fields : List String)
  | orderBy (keys : List SortKey)
  | groupBy (fields : List String)
  | bind (bindings : List Binding)

/-! ## Plans -/

/-- How the results of several operands are brought together. -/
inductive Combination where
  | and
  | or
  /-- like `or`, without looking below the top level of the operands -/
  | indexOr
  | merge
  /-- accepted in queries, but without an execution -/
  | join
deriving DecidableEq

inductive Plan where
  | literal (values : List Value)
  | json (document : Json)
  | transform (t : Transform) (input : Plan)
  | aggregate (input : Plan)
  | combine (how : Combination) (operands : List Plan)
  | difference (left right : Plan)
  | nest (key : String) (input : Plan)
  | target (names : List String) (input : Plan)
  | apply (subquery input : Plan)
  | assoc (type : String) (input : Plan)
  /-- attaches the edges of a type to every leaf of what is there already -/
  | assocHere (type : String)
  | obj (input : Plan)
  | exist (input : Plan)

instance : Inhabited Plan := ⟨.literal []⟩

end GraphQuery
