import GraphQuery.Json.Convert
import GraphQuery.Tree.Basic
/-!
# Trees from JSON documents

An object without an identifier whose values are all arrays of objects, or again such objects,
becomes a mapping.  Everything else becomes a sequence of records, in which a bare scalar is taken
for an identifier.
-/

namespace GraphQuery

namespace Json

def isObject : Json → Bool
  | object _ => true
  | _ => false

mutual

def isBranch : Json → Bool
  | array js => js.all isObject
  | object members =>
    !members.isEmpty && !(members.any fun m => m.1 = idField) && allBranches members
  | _ => false
termination_by structural j => j

def allBranches : List (String × Json) → Bool
  | [] => true
  | (_, j) :: rest => j.isBranch && allBranches rest
termination_by structural ms => ms

end

def isMapping (j : Json) : Bool := j.isObject && j.isBranch

def toItem (j : Json) : Item := Item.ofValue (Value.ofJson j)

mutual

def branch : Json → Tree
  | array js => .seq (.buffered (js.map toItem))
  | object members =>
    if isMapping (object members) then .map (branches members)
    else .seq (.buffered [toItem (object members)])
  | j => .seq (.buffered [toItem j])
termination_by structural j => j

def branches : List (String × Json) → List (Key × Tree)
  | [] => []
  | (name, j) :: rest => (.name name, j.branch) :: branches rest
termination_by structural ms => ms

end

def entries : Json → List (Key × Tree)
  | object members => branches members
  | _ => []

end Json

/-- The tree of a document; the mappings of an array are taken together. -/
def Tree.ofJson (j : Json) : Tree :=
  match j with
  | .array (first :: rest) =>
    if (first :: rest).all Json.isMapping then .map ((first :: rest).flatMap Json.entries)
    else .anon (.buffered ((first :: rest).map Json.toItem))
  | j =>
    match j.branch with
    | .seq s => .anon s
    | .map entries => .map entries

end GraphQuery
