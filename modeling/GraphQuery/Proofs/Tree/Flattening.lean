import GraphQuery.Proofs.Tree.Leaves
import Mathlib.Data.List.Basic
/-!
# Leaves one by one

An item comes apart into its leaves, in the order in which a walk meets them (`Item.takenApart_eq`):
whether it is walked or taken apart, an item that is no leaf stands for the records that its fields
nest (`Item.nested`).  So the flow of a tree hands out the leaves of the tree
(`Tree.toList_leafFlow`), and a flow of leaves is not changed by taking its items apart once more
(`Tree.flowOfLeaves_of_leaves`).
-/

namespace GraphQuery

/-! ## The next level of an item -/

def recordsOf (vs : List Value) : List Item := vs.filterMap Value.asRecord?

def nestedIn (fields : List (String × Value)) : List Item :=
  recordsOf ((fields.filter fun f => f.2.nestsItems).flatMap fun f => (f.2.asList?).getD [])

def Item.nested (item : Item) : List Item := nestedIn item.fields

theorem recordsOf_append (vs ws : List Value) :
    recordsOf (vs ++ ws) = recordsOf vs ++ recordsOf ws := List.filterMap_append

theorem mem_recordsOf {inner : Item} {vs : List Value} :
    inner ∈ recordsOf vs ↔ Value.record inner ∈ vs := by
  rw [recordsOf, List.mem_filterMap]
  constructor
  · rintro ⟨v, hv, hi⟩
    cases v with
    | record item =>
      cases hi
      exact hv
    | _ => cases hi
  · intro h
    exact ⟨_, h, rfl⟩

theorem nestedIn_cons_list {name : String} {vs : List Value} (rest : List (String × Value))
    (h : (Value.list vs).nestsItems = true) :
    nestedIn ((name, .list vs) :: rest) = recordsOf vs ++ nestedIn rest := by
  rw [nestedIn, List.filter_cons_of_pos (by exact h), List.flatMap_cons, recordsOf_append]
  rfl

theorem nestedIn_cons_of_not {name : String} {v : Value} (rest : List (String × Value))
    (h : ¬ v.nestsItems = true) : nestedIn ((name, v) :: rest) = nestedIn rest := by
  rw [nestedIn, List.filter_cons_of_neg (by exact h), nestedIn]

theorem mem_nestedIn {inner : Item} {fields : List (String × Value)} (h : inner ∈ nestedIn fields) :
    ∃ name vs, (name, Value.list vs) ∈ fields ∧ Value.record inner ∈ vs := by
  rw [nestedIn, mem_recordsOf] at h
  obtain ⟨⟨name, v⟩, hf, hv⟩ := List.mem_flatMap.1 h
  cases v with
  | list vs => exact ⟨name, vs, (List.mem_filter.1 hf).1, hv⟩
  | _ => cases hv

/-! ## Taking apart goes down level by level -/

theorem valuesApart_eq : ∀ vs : List Value, valuesApart vs = (recordsOf vs).flatMap Item.takenApart
  | [] => rfl
  | v :: rest => by
    rw [valuesApart, valuesApart_eq rest]
    cases v <;> rfl

theorem fieldsApart_eq : ∀ fields : List (String × Value),
    fieldsApart fields = (nestedIn fields).flatMap Item.takenApart
  | [] => rfl
  | (name, v) :: rest => by
    rw [fieldsApart, fieldsApart_eq rest]
    split
    · rename_i h
      cases v with
      | list vs =>
        rw [nestedIn_cons_list rest h, List.flatMap_append, Value.elementsApart, valuesApart_eq]
      | _ => cases h
    · rename_i h
      rw [nestedIn_cons_of_not rest h]

/-- **An item that is no leaf is given up for the items on its next level.** -/
theorem Item.takenApart_step (item : Item) :
    item.takenApart = if item.isLeaf then [item] else item.nested.flatMap Item.takenApart := by
  obtain ⟨fields⟩ := item
  rw [nested, ← fieldsApart_eq]
  rfl

theorem Item.takenApart_of_isLeaf {item : Item} (h : item.isLeaf = true) :
    item.takenApart = [item] := by
  rw [takenApart_step, if_pos h]

/-! ## So does a walk -/

theorem map_item_under (step : Step) (leaves : List Leaf) :
    (leaves.map (Leaf.under step)).map Leaf.item = leaves.map Leaf.item := List.map_map

theorem map_item_indexedLeaves {α : Type} (step : Nat → Step) (below : α → List Leaf) :
    ∀ (index : Nat) (xs : List α), (indexedLeaves step below index xs).map Leaf.item =
      xs.flatMap fun a => (below a).map Leaf.item
  | _, [] => rfl
  | index, a :: rest => by
    rw [indexedLeaves, List.map_append, map_item_under, map_item_indexedLeaves step below _ rest,
      List.flatMap_cons]

theorem map_item_leavesAt : ∀ vs : List Value, (vs.flatMap fun v => v.leavesAt.map Leaf.item) =
    (recordsOf vs).flatMap fun inner => inner.leaves.map Leaf.item
  | [] => rfl
  | v :: rest => by
    rw [List.flatMap_cons, map_item_leavesAt rest]
    cases v <;> rfl

theorem map_item_leavesOfFields : ∀ fields : List (String × Value),
    (leavesOfFields fields).map Leaf.item =
      (nestedIn fields).flatMap fun inner => inner.leaves.map Leaf.item
  | [] => rfl
  | (name, v) :: rest => by
    rw [leavesOfFields, List.map_append, map_item_under, map_item_leavesOfFields rest]
    by_cases h : v.nestsItems = true
    · cases v with
      | list vs =>
        rw [nestedIn_cons_list rest h, List.flatMap_append, Value.leavesBelow, if_pos h,
          leavesOfElements_eq, map_item_indexedLeaves, map_item_leavesAt]
      | _ => cases h
    · have hnone : v.leavesBelow = [] := List.eq_nil_iff_forall_not_mem.2 fun leaf hl =>
        h (nestsItems_of_mem_leavesBelow hl)
      rw [nestedIn_cons_of_not rest h, hnone]
      rfl

namespace Item

theorem map_item_leaves (item : Item) : item.leaves.map Leaf.item =
    if item.isLeaf then [item] else item.nested.flatMap fun inner => inner.leaves.map Leaf.item := by
  rw [leaves_eq, nested, ← map_item_leavesOfFields]
  split <;> rfl

/-- **An item comes apart into the leaves that a walk meets, in the same order.** -/
theorem takenApart_eq (item : Item) : item.takenApart = item.leaves.map Leaf.item := by
  induction item using item_induction with
  | step item ih =>
    -- both recursions go on with the same records, in the same order
    rw [takenApart_step, map_item_leaves]
    have hlevel : item.nested.flatMap takenApart =
        item.nested.flatMap fun inner => inner.leaves.map Leaf.item :=
      List.flatMap_congr fun inner hi => by
        obtain ⟨name, vs, hf, hv⟩ := mem_nestedIn hi
        exact ih name vs inner hf hv
    rw [hlevel]

end Item

/-! ## Trees -/

namespace Tree

variable {t : Tree}

theorem toList_flowOfLeaves (f : Flow Item) :
    (flowOfLeaves f).toList = f.toList.flatMap fun item => item.leaves.map Leaf.item := by
  obtain ⟨events⟩ := f
  induction events with
  | nil => rfl
  | cons e rest ih =>
    cases e with
    | pull source => exact ih
    | yield item =>
      have hy : (item.takenApart.map Event.yield).filterMap Flow.yielded? =
          item.leaves.map Leaf.item := by
        rw [List.filterMap_map, Item.takenApart_eq]
        exact List.filterMap_some
      rw [Flow.toList_mk_yield, List.flatMap_cons, ← ih]
      simp only [flowOfLeaves, Flow.toList, List.flatMap_cons, List.filterMap_append, hy]

theorem seqsOfEntries_eq : ∀ entries : List (Key × Tree),
    seqsOfEntries entries = entries.flatMap fun e => e.2.seqs
  | [] => rfl
  | e :: rest => by rw [seqsOfEntries, seqsOfEntries_eq rest, List.flatMap_cons]

theorem toList_itemFlow (t : Tree) : t.itemFlow.toList = t.seqs.flatMap Seq.toList := by
  rw [itemFlow, Flow.toList_join, List.flatMap_map]
  simp only [Seq.toList_flow]

theorem toList_itemFlow_map (entries : List (Key × Tree)) :
    (map entries).itemFlow.toList = entries.flatMap fun e => e.2.itemFlow.toList := by
  simp only [toList_itemFlow, seqs, seqsOfEntries_eq, List.flatMap_assoc]

theorem map_item_leaves (t : Tree) :
    t.leaves.map Leaf.item = t.itemFlow.toList.flatMap fun item => item.leaves.map Leaf.item := by
  induction t using tree_induction with
  | seq s =>
    rw [leaves_seq, map_item_indexedLeaves, toList_itemFlow, seqs, List.flatMap_singleton]
  | map entries ih =>
    rw [leaves_map, map_item_indexedLeaves, List.flatMap_congr ih, toList_itemFlow_map,
      List.flatMap_assoc]

/-- **The flow of a tree hands out the leaves that a walk meets, in the same order.** -/
theorem toList_leafFlow (t : Tree) : t.leafFlow.toList = t.leaves.map Leaf.item := by
  rw [leafFlow, toList_flowOfLeaves, map_item_leaves]

theorem flowOfLeaves_of_leaves {f : Flow Item} (h : ∀ item ∈ f.toList, item.isLeaf = true) :
    flowOfLeaves f = f := by
  obtain ⟨events⟩ := f
  refine congrArg Flow.mk ?_
  induction events with
  | nil => rfl
  | cons e rest ih =>
    rw [List.flatMap_cons]
    cases e with
    | pull source => rw [ih h, List.singleton_append]
    | yield item =>
      rw [Flow.toList_mk_yield, List.forall_mem_cons] at h
      rw [ih h.2]
      dsimp only
      rw [Item.takenApart_of_isLeaf h.1, List.map_singleton, List.singleton_append]

theorem isLeaf_of_mem_leafFlow {item : Item} (h : item ∈ t.leafFlow.toList) :
    item.isLeaf = true := by
  rw [toList_leafFlow] at h
  obtain ⟨leaf, hl, rfl⟩ := List.mem_map.1 h
  exact isLeaf_of_mem_leaves hl

end Tree

end GraphQuery
