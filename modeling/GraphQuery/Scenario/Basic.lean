import GraphQuery.Backend.Store
import GraphQuery.Endpoint
import GraphQuery.Scenario.Expectation
import GraphQuery.Scenario.QueryBook
/-!
# Scenarios

A scenario runs named queries in order and checks what is expected of the outcome of each.  The
first step that has no query, or whose outcome is not as expected, ends it.
-/

namespace GraphQuery

structure ScenarioStep where
  name : String
  expected : Expectation

structure Scenario where
  endpoint : Endpoint
  queries : QueryBook := {}
  steps : List ScenarioStep := []

inductive ScenarioError where
  | noQuery (step : String)
  | failed (step : String) (mismatch : Mismatch)

def ScenarioError.message : ScenarioError → String
  | noQuery step => "Step '" ++ step ++ "' has no query"
  | failed step mismatch => "Step '" ++ step ++ "' failed: " ++ mismatch.message

namespace Scenario

/-- The output of a query text; the query is run once for each kind of answer. -/
def output (e : Endpoint) (text : String) : Except AnswerError Outcome := do
  let rows ← e.flat text
  let tree ← e.hierarchical text
  return ⟨rows, tree⟩

def runStep (s : Scenario) (language : PatternLanguage) (step : ScenarioStep) :
    Except ScenarioError Unit :=
  match s.queries.text? step.name with
  | none => .error (.noQuery step.name)
  | some text =>
    let result := (output s.endpoint text).mapError AnswerError.message
    (step.expected.verify language result).mapError (.failed step.name)

def run (s : Scenario) (language : PatternLanguage) : Except ScenarioError Unit :=
  s.steps.forM (s.runStep language)

end Scenario

/-! ## Schemas and graphs for scenarios -/

namespace Graphs

/-- People have ages and names. -/
def people : List (String × FieldType) := [("age", .int), ("name", .string)]

def formula : Formula := { age := some 18 }

def persons : List (Int64 × String × Int64) :=
  [(1, "ada", 31), (2, "bob", 17), (3, "cy", 24), (4, "dee", 16), (5, "eve", 45)]

def links : List (EdgeKey × String) :=
  [(⟨1, "friend", 30, 2⟩, "school"),
   (⟨1, "friend", 20, 3⟩, "work"),
   (⟨1, "friend", 10, 4⟩, ""),
   (⟨1, "likes", 50, 5⟩, ""),
   (⟨2, "friend", 25, 1⟩, "school"),
   (⟨2, "friend", 15, 4⟩, ""),
   (⟨3, "friend", 40, 4⟩, "club"),
   (⟨5, "friend", 5, 1⟩, "")]

def social : Store :=
  let s := persons.foldl (fun (s : Store) (id, name, age) =>
    s.insertObject id (Record.ofFields [("name", .string name), ("age", .int age)])) .empty
  links.foldl (fun s (key, data) => s.addEdge key data) s

end Graphs

end GraphQuery
