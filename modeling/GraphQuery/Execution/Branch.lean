import GraphQuery.Execution.Basic
import GraphQuery.Operation.Transform
import GraphQuery.Tree.Access
/-!
# Rewriting the branches of a tree

The branches of a session are the lists at its cursor's points, or all sequences of its tree when
it has no cursor.  A transform on sequences stays lazy; every other rewriting happens at once,
branch by branch.

When the rewriting of a branch fails, the branches before it are rewritten already and those behind
it stay as they are; the branch itself has been taken out and is lost.
-/

namespace GraphQuery

abbrev Rewrite := List Item → World → Except QueryError (List Item) × World

structure Attempt where
  world : World
  failure : Option QueryError := none

namespace Rewrite

/-- Rewrites a sequence, unless a branch has failed before. -/
def onSeq (f : Rewrite) (s : Seq Item) (a : Attempt) : Seq Item × Attempt :=
  match a.failure with
  | some _ => (s, a)
  | none =>
    match f s.toList a.world with
    | (.ok items, w) => (.buffered items, ⟨w, none⟩)
    | (.error e, w) => (.buffered [], ⟨w, some e⟩)

def itemsOf : Value → List Item
  | .list vs => vs.map Item.ofValue
  | v => [Item.ofValue v]

/-- Rewrites the items in a field of an item; a field that is missing stays so. -/
def onField (f : Rewrite) (key : String) (item : Item) (a : Attempt) : Item × Attempt :=
  match item.writable? key with
  | none => (item, a)
  | some v =>
    match f (itemsOf v) a.world with
    | (.ok items, w) => ((item.assign? key (.list (items.map .record))).getD item, ⟨w, none⟩)
    | (.error e, w) => ((item.assign? key .null).getD item, ⟨w, some e⟩)

def onPoints (f : Rewrite) (key : String) : List Path → Tree → Attempt → Tree × Attempt
  | [], t, a => (t, a)
  | p :: rest, t, a =>
    match a.failure with
    | some _ => (t, a)
    | none =>
      match t.itemAt? p with
      | none => onPoints f key rest (t.enter p) a
      | some item =>
        let (item, a) := onField f key item a
        onPoints f key rest (t.changeItem (fun _ => item) p) a

def onBranches (f : Rewrite) (s : Session) (a : Attempt) : Tree × Attempt :=
  match s.cursor with
  | none => s.tree.traverse f.onSeq a
  | some c => f.onPoints c.key c.points s.tree a

end Rewrite

namespace Run

def rewriteBranches (f : Rewrite) : Run Unit := fun m =>
  let (t, a) := f.onBranches m.session { world := m.world }
  let after : Machine := ⟨{ m.session with tree := t }, a.world⟩
  match a.failure with
  | none => .ok () after
  | some e => .error e after

def transformItems (t : Transform) : Rewrite := fun items w =>
  let (f, words) := t.run (.ofList items) w.words
  (.ok f.toList, { w with words })

def transformSeq (t : Transform) (s : Seq Item) (w : Words) : Seq Item × Words :=
  let (f, w) := t.run s.flow w
  (.lazy f, w)

def transform (t : Transform) : Run Unit := do
  let m ← get
  match m.session.cursor with
  | some _ => rewriteBranches (transformItems t)
  | none =>
    let (tree, words) := m.session.tree.traverse (transformSeq t) m.world.words
    set { session := { m.session with tree }, world := { m.world with words } : Machine }

end Run

/-!
## Resolving identifiers

The items of a branch are replaced by the objects that the backend finds for their identifiers.  A
field that an object lacks is carried over from an item with its identifier; each identifier is
carried over once, from the last item that has it.
-/

namespace Objects

def hasIdentifier (id : Value) (item : Item) : Bool := item.id?.any (· == id)

def fill (object item : Item) : Item :=
  item.fields.foldl (fun r (name, v) => r.insertNew name v) object

/-- Carries fields over to objects, from items of which each identifier serves once. -/
def carryOver : List Item → List Item → List Item
  | _, [] => []
  | items, object :: rest =>
    match object.id? with
    | none => object :: carryOver items rest
    | some id =>
      match (items.filter (hasIdentifier id)).getLast? with
      | none => object :: carryOver items rest
      | some item =>
        fill object item :: carryOver (items.filter (!hasIdentifier id ·)) rest

/-- The objects of a branch; a branch without identifiers makes no call. -/
def branch (b : Backend) : Rewrite := fun items w =>
  match items.filterMap Record.id? with
  | [] => (.ok [], w)
  | ids =>
    let (found, w) := b.askObjects ids w
    (found.map (carryOver items), w)

end Objects

end GraphQuery
