import GraphQuery.Json.Convert
import GraphQuery.Json.Printer
import GraphQuery.Text.Basic
import GraphQuery.Value.Order
/-!
# What is expected of a step

An expectation lists what the outcome of one step shall be.  Its checks are made in a fixed order
and the first that fails is reported; one that expects an error checks nothing else.  The language of
the patterns for errors is a parameter.
-/

namespace GraphQuery

structure Outcome where
  rows : List Value
  tree : Value

namespace Outcome

def ids (o : Outcome) : List Value :=
  o.rows.filterMap fun row => row.asRecord?.bind Record.id?

def column (o : Outcome) (field : String) : List Value :=
  o.rows.filterMap fun row => row.asRecord?.bind (·.get? field)

end Outcome

/-- A language of patterns: what a pattern matches, or why it is none. -/
abbrev PatternLanguage := String → Except String (String → Bool)

/-- What is expected of a step; absent parts are not checked. -/
structure Expectation where
  error : Option String := none
  errorPattern : Option String := none
  custom : Option (Outcome → Bool) := none
  rows : Option Nat := none
  rowsMin : Option Nat := none
  rowsMax : Option Nat := none
  empty : Option Bool := none
  ids : Option (List Value) := none
  idSet : Option (List Value) := none
  value : Option (String × Value) := none
  columns : List (String × List Value) := []
  first : Option Value := none
  returns : Option (List Value) := none
  tree : Option Value := none

inductive Mismatch where
  | otherError (expected actual : String)
  | noError (expected : String)
  | invalidPattern (problem : String)
  | unmatchedError (pattern actual : String)
  | noErrorToMatch (pattern : String)
  | stepFailed (problem : String)
  | custom
  | rows (expected actual : Nat)
  | rowsMin (expected actual : Nat)
  | rowsMax (expected actual : Nat)
  | empty (expected : Bool) (actual : Nat)
  | ids (expected actual : List Value)
  | idSet (expected actual : List Value)
  | notSingle (actual : Nat)
  | value (field : String) (expected : Value) (actual : Option Value)
  | column (field : String) (expected actual : List Value)
  | first (expected : Value) (actual : Option Value)
  | returns (expected actual : List Value)
  | tree (expected actual : Value)

namespace Mismatch

def sides (what expected actual : String) : String :=
  what ++ " mismatch:\n  expected: " ++ expected ++ "\n  actual:   " ++ actual

def list (vs : List Value) : String := (Value.list vs).render

def message : Mismatch → String
  | otherError expected actual =>
    "expected error containing '" ++ expected ++ "', got: " ++ actual
  | noError expected => "expected error containing '" ++ expected ++ "', but step succeeded"
  | invalidPattern problem => "invalid regex pattern: " ++ problem
  | unmatchedError pattern actual =>
    "expected error matching '" ++ pattern ++ "', got: " ++ actual
  | noErrorToMatch pattern => "expected error matching '" ++ pattern ++ "', but step succeeded"
  | stepFailed problem => "step failed: " ++ problem
  | custom => "custom assertion failed"
  | rows expected actual => "expected " ++ toString expected ++ " rows, got " ++ toString actual
  | rowsMin expected actual =>
    "expected at least " ++ toString expected ++ " rows, got " ++ toString actual
  | rowsMax expected actual =>
    "expected at most " ++ toString expected ++ " rows, got " ++ toString actual
  | empty expected actual =>
    "expected " ++ (if expected then "" else "not ") ++ "empty, got " ++ toString actual ++ " rows"
  | ids expected actual => sides "id" (list expected) (list actual)
  | idSet expected actual => sides "id set" (list expected) (list actual)
  | notSingle actual => "expected a single row, got " ++ toString actual
  | value field expected actual =>
    "value mismatch for '" ++ field ++ "':\n  expected: " ++ expected.render ++
      "\n  actual:   " ++ (actual.elim "<missing>" Value.render)
  | column field expected actual =>
    sides ("column '" ++ field ++ "'") (list expected) (list actual)
  | first expected actual =>
    sides "first row" expected.render (actual.elim "<none>" Value.render)
  | returns expected actual => sides "rows" (list expected) (list actual)
  | tree expected actual => sides "tree" expected.toJson.render actual.toJson.render

end Mismatch

namespace Expectation

abbrev Check := Except Mismatch Unit

def require (holds : Bool) (otherwise : Mismatch) : Check :=
  if holds then .ok () else .error otherwise

def given {α : Type} (expected : Option α) (check : α → Check) : Check :=
  match expected with
  | some a => check a
  | none => .ok ()

/-- Whether two values have the same JSON document, so that records compare field by field. -/
def sameJson (a b : Value) : Bool := a.toJson == b.toJson

def agreeRows : List Value → List Value → Bool
  | [], [] => true
  | a :: as, b :: bs => sameJson a b && agreeRows as bs
  | _, _ => false

def checkCounts (e : Expectation) (o : Outcome) : Check := do
  let count := o.rows.length
  given e.rows fun n => require (count = n) (.rows n count)
  given e.rowsMin fun n => require (n ≤ count) (.rowsMin n count)
  given e.rowsMax fun n => require (count ≤ n) (.rowsMax n count)
  given e.empty fun b => require (o.rows.isEmpty == b) (.empty b count)

def checkValue (o : Outcome) (field : String) (expected : Value) : Check :=
  match o.rows with
  | [row] =>
    let actual := row.asRecord?.bind (·.get? field)
    require (actual.any (· == expected)) (.value field expected actual)
  | rows => .error (.notSingle rows.length)

def checkColumns (o : Outcome) : List (String × List Value) → Check
  | [] => .ok ()
  | (field, expected) :: rest => do
    require (sameValues (o.column field) expected) (.column field expected (o.column field))
    checkColumns o rest

def checkRows (e : Expectation) (o : Outcome) : Check := do
  given e.ids fun expected => require (sameValues o.ids expected) (.ids expected o.ids)
  given e.idSet fun expected =>
    let actual := stableSort Value.order o.ids
    let expected := stableSort Value.order expected
    require (sameValues actual expected) (.idSet expected actual)
  given e.value fun (field, expected) => checkValue o field expected
  checkColumns o e.columns
  given e.first fun expected =>
    require (o.rows.head?.any fun row => sameJson row expected) (.first expected o.rows.head?)
  given e.returns fun expected => require (agreeRows o.rows expected) (.returns expected o.rows)

def checkOutput (e : Expectation) (o : Outcome) : Check := do
  given e.custom fun holds => require (holds o) .custom
  checkCounts e o
  checkRows e o
  given e.tree fun expected => require (sameJson o.tree expected) (.tree expected o.tree)

def checkError (expected : String) : Except String Outcome → Check
  | .error actual =>
    require (Text.occursIn expected.toList actual.toList) (.otherError expected actual)
  | .ok _ => .error (.noError expected)

/-- The check of an error against a pattern, which is read before the result is looked at. -/
def checkErrorPattern (language : PatternLanguage) (pattern : String)
    (result : Except String Outcome) : Check := do
  let found ← (language pattern).mapError .invalidPattern
  match result with
  | .error actual => require (found actual) (.unmatchedError pattern actual)
  | .ok _ => .error (.noErrorToMatch pattern)

def verify (e : Expectation) (language : PatternLanguage) (result : Except String Outcome) : Check :=
  match e.error, e.errorPattern with
  | some expected, _ => checkError expected result
  | none, some pattern => checkErrorPattern language pattern result
  | none, none =>
    match result with
    | .error problem => .error (.stepFailed problem)
    | .ok output => checkOutput e output

end Expectation

end GraphQuery
