import GraphQuery.Execution.Run
import GraphQuery.Plan.OfForm
import GraphQuery.Tree.Output
/-!
# Answering query texts

A text is read, its pipelines are expanded, it is checked against a schema, and its plan is run
against a backend.  The answer is taken from the tree that the session ends with.
-/

namespace GraphQuery

inductive AnswerError where
  | malformed (e : SyntaxError)
  | invalid (e : PlanError)
  | failed (e : QueryError)

/-- The text of an error, which begins with the stage that failed. -/
def AnswerError.message : AnswerError → String
  | malformed e => "syntax error: " ++ e.message
  | invalid e => "validation error: " ++ e.message
  | failed e => "query error: " ++ e.message

/-- What query texts are answered with. -/
structure Endpoint where
  schema : Schema
  backend : Backend
  anonymousKey : String := "_"
  words : List UInt64 := []

namespace Session

def leafItems (s : Session) : List Item := s.tree.leafFlow.toList

def flat (s : Session) : List Value := s.tree.leafValues

end Session

namespace Endpoint

def prepare (e : Endpoint) (text : String) : Except AnswerError Plan := do
  let form ← (Form.parse text).mapError .malformed
  (Plan.ofForm e.schema form).mapError .invalid

def start (e : Endpoint) (s : Session) : Machine := ⟨s, { words := ⟨e.words, 0⟩ }⟩

def run (e : Endpoint) (p : Plan) (m : Machine) : EStateM.Result QueryError Machine Unit :=
  p.run e.backend m

def execute (e : Endpoint) (text : String) : Except AnswerError Session := do
  let p ← e.prepare text
  match e.run p (e.start .empty) with
  | .ok _ m => return m.session
  | .error problem _ => throw (.failed problem)

def toValue (e : Endpoint) (s : Session) : Value := s.tree.toValue e.anonymousKey

def flat (e : Endpoint) (text : String) : Except AnswerError (List Value) :=
  (e.execute text).map Session.flat

def hierarchical (e : Endpoint) (text : String) : Except AnswerError Value :=
  (e.execute text).map e.toValue

end Endpoint

end GraphQuery
