import GraphQuery.Tree.Basic
/-!
# Leaves

An item is a leaf unless one of its fields holds identified records; those fields are the next
level of the result.  Leaves are met depth first, in the order of entries, items and fields, and
each has a path (`Tree.leaves`).  A lazy tree hands out its leaves one by one, without their paths
(`Tree.leafFlow`).
-/

namespace GraphQuery

/-- Whether a value is a list with an identified record in it. -/
def Value.nestsItems : Value → Bool
  | .list vs => vs.any fun v => v.asRecord?.any Record.hasId
  | _ => false

/-- Whether no field holds identified records. -/
def Item.isLeaf (item : Item) : Bool := !item.fields.any fun f => f.2.nestsItems

structure Leaf where
  path : Path
  item : Item

def Leaf.under (step : Step) (l : Leaf) : Leaf := ⟨step :: l.path, l.item⟩

mutual

def Value.leavesBelow : Value → List Leaf
  | .list vs => if (Value.list vs).nestsItems then leavesOfElements 0 vs else []
  | _ => []
termination_by structural v => v

/-- The leaves of an element of a list: a record that is a leaf, or those below it. -/
def Value.leavesAt : Value → List Leaf
  | .record ⟨fields⟩ => if Item.isLeaf ⟨fields⟩ then [⟨[], ⟨fields⟩⟩] else leavesOfFields fields
  | _ => []
termination_by structural v => v

def leavesOfFields : List (String × Value) → List Leaf
  | [] => []
  | (name, v) :: rest => v.leavesBelow.map (Leaf.under (.field name)) ++ leavesOfFields rest
termination_by structural fields => fields

def leavesOfElements (index : Nat) : List Value → List Leaf
  | [] => []
  | v :: rest => v.leavesAt.map (Leaf.under (.item index)) ++ leavesOfElements (index + 1) rest
termination_by structural vs => vs

end

def Item.leaves (item : Item) : List Leaf := (Value.record item).leavesAt

def leavesOfItems (index : Nat) : List Item → List Leaf
  | [] => []
  | item :: rest => item.leaves.map (Leaf.under (.item index)) ++ leavesOfItems (index + 1) rest

/-! ## Taking items apart

Where only the leaves matter an item is taken apart instead: unless it is a leaf, it is given up for
the records that its fields nest, and these are taken apart in turn. -/

mutual

/-- What an element of a list comes apart into: a leaf stays, and a scalar or a list is dropped. -/
def Value.takenApart : Value → List Item
  | .record ⟨fields⟩ => if Item.isLeaf ⟨fields⟩ then [⟨fields⟩] else fieldsApart fields
  | _ => []
termination_by structural v => v

def Value.elementsApart : Value → List Item
  | .list vs => valuesApart vs
  | _ => []
termination_by structural v => v

def fieldsApart : List (String × Value) → List Item
  | [] => []
  | (_, v) :: rest => if v.nestsItems then v.elementsApart ++ fieldsApart rest else fieldsApart rest
termination_by structural fields => fields

def valuesApart : List Value → List Item
  | [] => []
  | v :: rest => v.takenApart ++ valuesApart rest
termination_by structural vs => vs

end

def Item.takenApart (item : Item) : List Item := (Value.record item).takenApart

namespace Tree

mutual

def leaves : Tree → List Leaf
  | seq s => leavesOfItems 0 s.toList
  | map entries => leavesOfEntries 0 entries
termination_by structural t => t

def leavesOfEntries (index : Nat) : List (Key × Tree) → List Leaf
  | [] => []
  | (_, t) :: rest =>
    t.leaves.map (Leaf.under (.entry index)) ++ leavesOfEntries (index + 1) rest
termination_by structural entries => entries

end

/-- A flow in which every item is taken apart. -/
def flowOfLeaves (f : Flow Item) : Flow Item :=
  ⟨f.events.flatMap fun
    | .pull source => [.pull source]
    | .yield item => item.takenApart.map .yield⟩

def leafFlow (t : Tree) : Flow Item := flowOfLeaves t.itemFlow

end Tree

end GraphQuery
