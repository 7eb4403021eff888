import GraphQuery.Operation.Merge
import GraphQuery.Tree.Basic
/-!
# Merging trees

Mappings merge entry by entry.  Two sequences that each hold a single record without an identifier
merge into one record; any other two sequences follow one another.
-/

namespace GraphQuery

namespace Tree

def conflictKey (key : Key) : String := key.render "_"

def mergeSeqs (left right : List Item) : Except MergeConflict (List Item) :=
  match left, right with
  | [a], [b] => if a.hasId || b.hasId then .ok [a, b] else (Item.merge a b).map ([·])
  | left, right => .ok (left ++ right)

/-- Changes the first entry of a key, or adds an entry at the end if there is none. -/
def putEntry (key : Key) (added : Tree) (change : Tree → Except MergeConflict Tree) :
    List (Key × Tree) → Except MergeConflict (List (Key × Tree))
  | [] => .ok [(key, added)]
  | (k, t) :: rest =>
    if k = key then (change t).map fun t => (k, t) :: rest
    else (putEntry key added change rest).map ((k, t) :: ·)

mutual

def mergeUnder (key : String) (left : Tree) : Tree → Except MergeConflict Tree
  | seq b =>
    match left with
    | seq a => (mergeSeqs a.toList b.toList).map fun items => seq (.buffered items)
    | map _ => .error ⟨key, "mapping", "sequence"⟩
  | map others =>
    match left with
    | map entries => (mergeEntries entries others).map map
    | seq _ => .error ⟨key, "sequence", "mapping"⟩
termination_by structural right => right

def mergeEntries (entries : List (Key × Tree)) :
    List (Key × Tree) → Except MergeConflict (List (Key × Tree))
  | [] => .ok entries
  | (key, t) :: rest =>
    (putEntry key t (fun current => mergeUnder (conflictKey key) current t) entries).bind
      fun entries => mergeEntries entries rest
termination_by structural others => others

end

def merge (left right : Tree) : Except MergeConflict Tree := mergeUnder "" left right

end Tree

end GraphQuery
