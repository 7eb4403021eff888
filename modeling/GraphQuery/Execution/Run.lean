import GraphQuery.Execution.Branch
import GraphQuery.Execution.Edges
import GraphQuery.Execution.Replant
import GraphQuery.Operation.SetAlgebra
import GraphQuery.Plan.Basic
import GraphQuery.Tree.Merge
import GraphQuery.Tree.OfJson
/-!
# Running plans

`Plan.run` interprets a plan against a backend, from the innermost input outwards, and leaves its
result in the session.
-/

namespace GraphQuery

def existsField : String := "exists"

def scopeField : String := ":scope"

namespace Session

def nest (key : String) (s : Session) : Session :=
  { s with
    tree := .map [(.name key, s.tree)]
    cursor := s.cursor.map fun c => ⟨c.points.map (.entry 0 :: ·), c.key⟩ }

/-- One record if something exists, which lists the identifiers in scope if there is a scope. -/
def existence (scope : Option (List Item)) (found : Bool) : List Item :=
  if found then
    let r := (Record.empty : Item).set existsField (.bool true)
    [match scope with
      | some items => r.set scopeField (.list (items.filterMap Record.id?))
      | none => r]
  else []

end Session

/-- What an operand of a combination contributes to a set operation. -/
def Combination.flowOf : Combination → Tree → Flow Item
  | .indexOr, t => t.itemFlow
  | _, t => t.leafFlow

namespace Plan

mutual

def run (b : Backend) : Plan → Run Unit
  | literal values =>
    Run.update (·.reset (.anon (.lazy (.ofList (values.map Item.ofValue)))))
  | json document => Run.update (·.reset (.ofJson document))
  | transform t input => do
    run b input
    Run.transform t
  | aggregate input => do
    run b input
    Run.update fun s => s.reset (.anon (.lazy s.tree.leafFlow))
  | combine .and operands => do
    let trees ← runAll b operands
    Run.update (·.reset (.anon (.lazy (SetAlgebra.intersect (trees.map Combination.and.flowOf)))))
  | combine .or operands => do
    let trees ← runAll b operands
    Run.update (·.reset (.anon (.lazy (SetAlgebra.union (trees.map Combination.or.flowOf)))))
  | combine .indexOr operands => do
    let trees ← runAll b operands
    Run.update (·.reset (.anon (.lazy (SetAlgebra.union (trees.map Combination.indexOr.flowOf)))))
  | combine .merge operands => do
    let merged ← runMerge b none operands
    Run.update (·.reset (merged.getD .empty))
  | combine .join _ => throw (.unsupported "join")
  | difference left right => do
    let l ← Run.operand (run b left)
    let r ← Run.operand (run b right)
    Run.update (·.reset (.anon (.lazy (SetAlgebra.difference l.leafFlow r.leafFlow))))
  | nest key input => do
    run b input
    Run.update (·.nest key)
  | target names input => do
    run b input
    Run.update fun s => { s with target := some names }
  | apply subquery input => do
    run b input
    Run.applySubquery (run b subquery)
  | assoc type input => do
    run b input
    Run.attach b type
  | assocHere type => Run.attach b type
  | obj input => do
    run b input
    Run.rewriteBranches (Objects.branch b)
  | exist input => do
    let t ← Run.operand (run b input)
    Run.update fun s =>
      s.reset (.ofItems (Session.existence s.scope t.leafFlow.next.next.isSome))
termination_by structural p => p

def runAll (b : Backend) : List Plan → Run (List Tree)
  | [] => pure []
  | p :: rest => do
    let t ← Run.operand (run b p)
    let ts ← runAll b rest
    return t :: ts
termination_by structural ps => ps

def runMerge (b : Backend) (merged : Option Tree) : List Plan → Run (Option Tree)
  | [] => pure merged
  | p :: rest => do
    let t ← Run.operand (run b p)
    let t ← match merged with
      | none => pure t
      | some m => Run.ofExcept (m.merge t)
    runMerge b (some t) rest
termination_by structural ps => ps

end

end Plan

end GraphQuery
