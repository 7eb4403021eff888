import GraphQuery.Execution.Basic
import GraphQuery.Tree.Access
import GraphQuery.Tree.Leaves
import GraphQuery.Value.Order
/-!
# Replanting

The results of a subquery go back to the leaves it was run on.  A result takes the place of the
first leaf equal to it that no result has taken yet, and leaves without a result are removed.  When
there are results but none of them equals a leaf, they become the tree.

A subquery that ends in a mapping keeps it: every sequence of the mapping is replanted in its own
copy of the tree, which is then put in the place of that sequence.
-/

namespace GraphQuery

namespace Replant

structure Placed where
  tree : Tree
  cursor : Option Cursor

/-! ## Matching -/

/-- The first origin, from `index` on, that equals a result and is not taken. -/
def findFree (taken : List Nat) (result : Item) (index : Nat) : List Leaf → Option Nat
  | [] => none
  | leaf :: rest =>
    if leaf.item == result && !taken.contains index then some index
    else findFree taken result (index + 1) rest

/-- For every result the position of the origin whose place it takes. -/
def assign (origins : List Leaf) : List Nat → List Item → List (Option Nat)
  | _, [] => []
  | taken, result :: rest =>
    match findFree taken result 0 origins with
    | some o => some o :: assign origins (o :: taken) rest
    | none => none :: assign origins taken rest

/-! ## Replacing and removing -/

def overwrite (origins : List Leaf) : List (Item × Option Nat) → Tree → Tree
  | [], t => t
  | (result, some o) :: rest, t =>
    match origins[o]? with
    | some leaf => overwrite origins rest (t.changeItem (fun _ => result) leaf.path)
    | none => overwrite origins rest t
  | (_, none) :: rest, t => overwrite origins rest t

def unused (assignment : List (Option Nat)) (index : Nat) : List Leaf → List Path
  | [] => []
  | leaf :: rest =>
    if assignment.contains (some index) then unused assignment (index + 1) rest
    else leaf.path :: unused assignment (index + 1) rest

def prune : List Path → List Path → Tree → List Path × Tree
  | [], points, t => (points, t)
  | p :: rest, points, t => prune rest (points.filterMap (Path.shift? p)) (t.removeAt p).tree

/-- A path of the subquery's tree, without the anonymous entry, as a path below an origin. -/
def outward (origins : List Leaf) (assignment : List (Option Nat)) (p : Path) : Option Path :=
  let steps := match p with
    | .entry 0 :: rest => rest
    | steps => steps
  match steps with
  | .item s :: rest =>
    match assignment[s]? with
    | some (some o) => origins[o]?.map fun leaf => leaf.path ++ rest
    | _ => none
  | _ => none

/--
Puts results back in place of the leaves they came from.  Answers nothing when there are results
and none of them has a place.
-/
def replant? (origins : List Leaf) (results : List Item) (sub : Option Cursor) (into : Placed) :
    Option Placed :=
  let assignment := assign origins [] results
  if !results.isEmpty && assignment.all Option.isNone then none
  else
    let t := overwrite origins (results.zip assignment) into.tree
    let points := match sub with
      | some c => c.points.filterMap (outward origins assignment)
      | none => (into.cursor.map Cursor.points).getD []
    let removed := stableSort (fun a b => Path.order b a) (unused assignment 0 origins)
    let (points, t) := prune removed points t
    some ⟨t, (sub.or into.cursor).map fun c => ⟨points, c.key⟩⟩

def replantOrReplace (origins : List Leaf) (results : List Item) (sub : Option Cursor)
    (into : Placed) : Placed :=
  (replant? origins results sub into).getD ⟨.ofItems results, sub⟩

/-! ## Replanting under a mapping -/

def below (p : Path) (c : Cursor) : Cursor := ⟨c.points.filterMap (Path.strip? · p), c.key⟩

/-- A point of a branch as a point of the whole; a lifted branch has lost its anonymous entry. -/
def rejoin (p : Path) (lifted : Bool) : Path → Path
  | .entry 0 :: rest => if lifted then p ++ rest else p ++ .entry 0 :: rest
  | steps => p ++ steps

/-- Puts a branch in the place of the sequence at a prefix of the mapping built so far. -/
def hang (p : Path) (branch whole : Placed) : Placed :=
  let t := match branch.tree.single? with
    | some s => Tree.seq s
    | none => branch.tree
  let points := (whole.cursor.map Cursor.points).getD []
  let cursor := match branch.cursor with
    | some c =>
      some ⟨points ++ c.points.map (rejoin p branch.tree.single?.isSome), c.key⟩
    | none => whole.cursor
  ⟨whole.tree.changeSubtree (fun _ => t) p, cursor⟩

/-- Replants the sequences at some paths of a mapping, each in a copy of the outer tree. -/
def replantAll (origins : List Leaf) (outer : Placed) (sub : Option Cursor) :
    List Path → Placed → Placed
  | [], whole => whole
  | p :: rest, whole =>
    match whole.tree.seqAt? p with
    | none => replantAll origins outer sub rest whole
    | some s =>
      let branch := replantOrReplace origins s.toList (sub.map (below p)) outer
      replantAll origins outer sub rest (hang p branch whole)

def replantUnder (origins : List Leaf) (shaped : Tree) (sub : Option Cursor) (outer : Placed) :
    Placed :=
  replantAll origins ⟨outer.tree.force, outer.cursor⟩ sub shaped.seqPaths ⟨shaped, none⟩

def place (origins : List Leaf) (child : Session) (outer : Placed) : Placed :=
  match child.tree.single? with
  | some s => replantOrReplace origins s.toList child.cursor outer
  | none => replantUnder origins child.tree child.cursor outer

end Replant

namespace Run

def applySubquery (subquery : Run Unit) : Run Unit := do
  update fun s => { s with tree := s.tree.force }
  let origins := (← get).session.tree.leaves
  let child ← inChild (.within (origins.map Leaf.item)) subquery
  update fun s =>
    let placed := Replant.place origins child ⟨s.tree, s.cursor⟩
    { s with tree := placed.tree, cursor := placed.cursor, target := child.target.or s.target }

end Run

end GraphQuery
