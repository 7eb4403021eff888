import GraphQuery.Backend.Basic
import GraphQuery.Operation.Merge
import GraphQuery.Operation.Sample
import GraphQuery.Tree.Basic
/-!
# Sessions

A session holds the result tree of a query while it is built.  Its *cursor*, if it has one, names
the field of each of some items where the next transform applies; without a cursor transforms apply
to every sequence of the tree.  A session may be *scoped* to the items of an outer query.

The world is what all sessions of a query share: the calls made to the backend and the supply of
random words.  A run that fails keeps the state it had reached.
-/

namespace GraphQuery

inductive QueryError where
  | backend (e : BackendError)
  | unsupported (op : String)
  | conflict (c : MergeConflict)

def QueryError.message : QueryError → String
  | backend e => e.message
  | unsupported op => "Unsupported operator: " ++ op
  | conflict c => c.message

/-- Where the next transform applies: one field of the items at some paths. -/
structure Cursor where
  points : List Path
  key : String

structure Session where
  tree : Tree := .empty
  cursor : Option Cursor := none
  scope : Option (List Item) := none
  target : Option (List String) := none

namespace Session

def empty : Session := {}

def within (items : List Item) : Session := { tree := .ofItems items, scope := some items }

def ofScope (scope : Option (List Item)) : Session := scope.elim empty within

def reset (s : Session) (t : Tree) : Session := { s with tree := t, cursor := none }

end Session

structure World where
  calls : List Call := []
  words : Words := ⟨[], 0⟩

structure Machine where
  session : Session
  world : World

abbrev Run := EStateM QueryError Machine

namespace Run

def update (f : Session → Session) : Run Unit :=
  modify fun m => { m with session := f m.session }

def ofExcept {α : Type} : Except MergeConflict α → Run α
  | .ok a => pure a
  | .error c => throw (.conflict c)

/--
Runs a step in a session of its own and answers what became of that one.  The session at hand
is the same before and after, whether the step fails or not.
-/
def inChild (child : Session) (step : Run Unit) : Run Session := fun m =>
  match step { m with session := child } with
  | .ok _ after => .ok after.session { after with session := m.session }
  | .error e after => .error e { after with session := m.session }

/-- Runs a step in a session of the same scope, and answers its tree. -/
def operand (step : Run Unit) : Run Tree := do
  let child ← inChild (.ofScope (← get).session.scope) step
  return child.tree

end Run

/-! ## Calls -/

namespace Backend

abbrev Answer := Except QueryError (List Item) × World

def record (w : World) (c : Call) : World := { w with calls := w.calls ++ [c] }

def askObjects (b : Backend) (ids : List Value) (w : World) : Answer :=
  ((b.objects w.calls ids).mapError .backend, record w (.objects ids))

def askEdges (b : Backend) (type : String) (id : Value) (w : World) : Answer :=
  ((b.edges w.calls type id).mapError .backend, record w (.edges type id))

end Backend

end GraphQuery
