import GraphQuery.Tree.Basic
/-!
# Reading and changing a tree at a path

A path that enters a sequence buffers it, whether or not the item it looks for is there.  Within an
item a path passes only through fields that may be overwritten, so never through the identifier.
-/

namespace GraphQuery

namespace Item

/-- The elements of a list field that may be overwritten. -/
def elements? (item : Item) (name : String) : Option (List Value) :=
  match item.writable? name with
  | some (.list vs) => some vs
  | _ => none

def within? : Path → Item → Option Item
  | [], item => some item
  | .field name :: .item k :: rest, item =>
    match (item.elements? name).bind (·[k]?) with
    | some (.record inner) => within? rest inner
    | _ => none
  | _, _ => none

def changeWithin (f : Item → Item) : Path → Item → Item
  | [], item => f item
  | .field name :: .item k :: rest, item =>
    match item.elements? name with
    | none => item
    | some vs =>
      match vs[k]? with
      | some (.record inner) =>
        (item.assign? name (.list (vs.set k (.record (changeWithin f rest inner))))).getD item
      | _ => item
  | _, item => item

end Item

namespace Tree

/-! ## Sequences and subtrees -/

def subtree? : Path → Tree → Option Tree
  | [], t => some t
  | .entry i :: rest, map entries => entries[i]?.bind fun e => subtree? rest e.2
  | _, _ => none

def changeSubtree (f : Tree → Tree) : Path → Tree → Tree
  | [], t => f t
  | .entry i :: rest, map entries =>
    match entries[i]? with
    | some (key, t) => map (entries.set i (key, changeSubtree f rest t))
    | none => map entries
  | _, t => t

def seqAt? (p : Path) (t : Tree) : Option (Seq Item) :=
  match t.subtree? p with
  | some (seq s) => some s
  | _ => none

def changeSeq (f : Seq Item → Seq Item) (p : Path) (t : Tree) : Tree :=
  t.changeSubtree (fun
    | seq s => seq (f s)
    | map entries => map entries) p

/-! ## Items -/

/-- The item at a path. -/
def itemAt? : Path → Tree → Option Item
  | .entry i :: rest, map entries => entries[i]?.bind fun e => itemAt? rest e.2
  | .item j :: rest, seq s => s.toList[j]?.bind (Item.within? rest)
  | _, _ => none

def changeItem (f : Item → Item) : Path → Tree → Tree
  | .entry i :: rest, map entries =>
    match entries[i]? with
    | some (key, t) => map (entries.set i (key, changeItem f rest t))
    | none => map entries
  | .item j :: rest, seq s =>
    seq (.buffered (s.toList.modify j (Item.changeWithin f rest)))
  | _, t => t

/-- Buffers the sequence that a path enters. -/
def enter (p : Path) (t : Tree) : Tree := t.changeItem id p

/-! ## Removing -/

/-- An item taken out of a tree, if it was there, and the tree that is left. -/
structure Removal where
  item : Option Item
  tree : Tree

def removeElement (name : String) (k : Nat) (item : Item) : Item :=
  match item.elements? name with
  | some vs => (item.assign? name (.list (vs.eraseIdx k))).getD item
  | none => item

def removeAt (p : Path) (t : Tree) : Removal :=
  match p.getLast? with
  | some (.item k) =>
    match p.dropLast.getLast? with
    | some (.field name) =>
      let owner := p.dropLast.dropLast
      ⟨(((t.itemAt? owner).bind (·.elements? name)).bind (·[k]?)).map Item.ofValue,
        t.changeItem (removeElement name k) owner⟩
    | _ =>
      ⟨(t.seqAt? p.dropLast).bind (·.toList[k]?),
        t.changeSeq (fun s => .buffered (s.toList.eraseIdx k)) p.dropLast⟩
  | _ => ⟨none, t⟩

end Tree

end GraphQuery
