import GraphQuery.Execution.Basic
import GraphQuery.Tree.Access
import GraphQuery.Tree.Leaves
/-!
# Attaching edges

The edges of every identified leaf are looked up first, in the order of the leaves, and then
attached to the leaves as a list field.  When a lookup fails, the edges found before are attached
all the same, and the cursor stays where it was.
-/

namespace GraphQuery

namespace Edges

structure Found where
  path : Path
  edges : List Item

/-- The edges of some leaves, up to the first failed lookup. -/
structure Lookup where
  found : List Found
  failure : Option QueryError
  world : World

def lookup (b : Backend) (type : String) : List Leaf → World → Lookup
  | [], w => ⟨[], none, w⟩
  | leaf :: rest, w =>
    match leaf.item.id? with
    | none => lookup b type rest w
    | some id =>
      match b.askEdges type id w with
      | (.error e, w) => ⟨[], some e, w⟩
      | (.ok edges, w) =>
        let more := lookup b type rest w
        { more with found := ⟨leaf.path, edges⟩ :: more.found }

def attachTo (type : String) (edges : List Item) (item : Item) : Item :=
  item.set type (.list (edges.map .record))

/-- Attaches edges to the items they were found for, and answers the paths of these. -/
def commit (type : String) : List Found → Tree → List Path × Tree
  | [], t => ([], t)
  | f :: rest, t =>
    let (points, after) := commit type rest (t.changeItem (attachTo type f.edges) f.path)
    (if (t.itemAt? f.path).isSome then f.path :: points else points, after)

end Edges

namespace Run

def attach (b : Backend) (type : String) : Run Unit := fun m =>
  let t := m.session.tree.force
  let l := Edges.lookup b type t.leaves m.world
  let (points, t) := Edges.commit type l.found t
  match l.failure with
  | some e => .error e ⟨{ m.session with tree := t }, l.world⟩
  | none => .ok () ⟨{ m.session with tree := t, cursor := some ⟨points, type⟩ }, l.world⟩

end Run

end GraphQuery
