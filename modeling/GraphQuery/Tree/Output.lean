import GraphQuery.Tree.Leaves
/-!
# What a tree is answered as

The flat answer is the list of leaves; the hierarchical answer is the whole tree as a value, with
mappings as records and sequences as lists.  Nulls and containers with nothing in them are left
out, from the inside to the outside; falsy scalars stay.
-/

namespace GraphQuery

mutual

/-- A value without nulls and empty containers inside it. -/
def Value.prune : Value → Value
  | .list vs => .list (pruneValues vs)
  | .record ⟨fields⟩ => .record (Record.ofFields (pruneFields fields))
  | v => v
termination_by structural v => v

def pruneValues : List Value → List Value
  | [] => []
  | v :: rest =>
    if v.prune.isVoid then pruneValues rest else v.prune :: pruneValues rest
termination_by structural vs => vs

def pruneFields : List (String × Value) → List (String × Value)
  | [] => []
  | (name, v) :: rest =>
    if v.prune.isVoid then pruneFields rest else (name, v.prune) :: pruneFields rest
termination_by structural fields => fields

end

namespace Tree

mutual

/-- The hierarchical answer, given how the anonymous key is written. -/
def toValue (anonymous : String) : Tree → Value
  | seq s => .list (pruneValues (s.toList.map .record))
  | map entries => .record (entriesToRecord anonymous .empty entries)
termination_by structural t => t

def entriesToRecord (anonymous : String) (r : Item) : List (Key × Tree) → Item
  | [] => r
  | (key, t) :: rest =>
    let v := t.toValue anonymous
    entriesToRecord anonymous
      (if v.isVoid then r else r.set (key.render anonymous) v) rest
termination_by structural entries => entries

end

def leafValues (t : Tree) : List Value := pruneValues (t.leafFlow.toList.map .record)

end Tree

end GraphQuery
