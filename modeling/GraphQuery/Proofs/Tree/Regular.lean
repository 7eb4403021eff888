import GraphQuery.Proofs.Tree.Flattening
import GraphQuery.Proofs.Value.Regular
import GraphQuery.Tree.Merge
/-!
# Regular trees

A tree is regular when all its items are.  What is read from a regular tree is regular, and every
change of a tree that puts regular items in keeps it regular: rewriting its sequences, changing an
item, taking one out, hanging a subtree, and merging two trees.
-/

namespace GraphQuery

def Tree.Regular (t : Tree) : Prop := t.Everywhere Item.isSound flat

def AllRegular (items : List Item) : Prop := ∀ item ∈ items, item.Regular

theorem allRegular_nil : AllRegular [] := fun _ h => absurd h List.not_mem_nil

instance (items : List Item) : Decidable (AllRegular items) :=
  inferInstanceAs (Decidable (∀ item ∈ items, item.Regular))

instance (t : Tree) : Decidable t.Regular :=
  inferInstanceAs (Decidable (∀ s ∈ t.seqs, AllRegular s.toList))

namespace Tree

variable {t u : Tree} {p : Path}

theorem regular_seq {s : Seq Item} : (seq s).Regular ↔ AllRegular s.toList := everywhere_seq

theorem regular_map {entries : List (Key × Tree)} :
    (map entries).Regular ↔ ∀ e ∈ entries, e.2.Regular := everywhere_map

theorem regular_empty : empty.Regular := regular_map.2 fun _ h => absurd h List.not_mem_nil

theorem regular_anon {s : Seq Item} : (anon s).Regular ↔ AllRegular s.toList := by
  rw [anon, regular_map, List.forall_mem_singleton, regular_seq]

theorem regular_force : t.force.Regular ↔ t.Regular := everywhere_force

theorem Regular.addressable (h : t.Regular) : t.Everywhere Item.isAddressable fun _ => true :=
  h.mono (fun _ => Item.isAddressable_of_isSound) fun _ _ => rfl

/-! ## Reading -/

theorem Regular.itemAt? (h : t.Regular) {item : Item} (hi : t.itemAt? p = some item) :
    item.Regular := by
  induction p, t using path_induction with
  | entry i p entries key t he ih =>
    rw [itemAt?_entry, he] at hi
    exact ih (regular_map.1 h _ (List.mem_of_getElem? he)) hi
  | item j p s =>
    rw [itemAt?_item] at hi
    obtain ⟨top, hj, hi⟩ := Option.bind_eq_some_iff.1 hi
    exact Item.everywhere_within? (regular_seq.1 h top (List.mem_of_getElem? hj)) hi
  | stray p t hp => rw [hp] at hi; cases hi

theorem Regular.subtree? (h : t.Regular) (hu : t.subtree? p = some u) : u.Regular := by
  induction p, t using subtree_induction with
  | nil t =>
    cases t <;> cases hu <;> exact h
  | entry i p entries key t he ih =>
    rw [subtree?_entry, he] at hu
    exact ih (regular_map.1 h _ (List.mem_of_getElem? he)) hu
  | stray p t hp => rw [hp] at hu; cases hu

theorem Regular.single? (h : t.Regular) {s : Seq Item} (hs : t.single? = some s) :
    AllRegular s.toList := by
  rcases single?_eq_some.1 hs with rfl | rfl
  · exact regular_seq.1 h
  · exact regular_anon.1 h

theorem Regular.leaves (h : t.Regular) : AllRegular (t.leaves.map Leaf.item) := by
  intro item hi
  obtain ⟨leaf, hl, rfl⟩ := List.mem_map.1 hi
  exact everywhere_of_mem_leaves h hl

theorem Regular.itemFlow (h : t.Regular) : AllRegular t.itemFlow.toList := by
  intro item hi
  rw [Tree.itemFlow, Flow.toList_join, List.flatMap_map] at hi
  obtain ⟨s, hs, hi⟩ := List.mem_flatMap.1 hi
  rw [Seq.toList_flow] at hi
  exact h s hs item hi

theorem Regular.leafFlow (h : t.Regular) : AllRegular t.leafFlow.toList := by
  intro item hi
  rw [Tree.leafFlow, toList_flowOfLeaves] at hi
  obtain ⟨top, ht, hi⟩ := List.mem_flatMap.1 hi
  obtain ⟨leaf, hl, rfl⟩ := List.mem_map.1 hi
  exact Item.everywhere_of_mem_leaves (h.itemFlow top ht) hl

/-! ## Changing -/

/-- **Changing an item to a regular one keeps a tree regular.** -/
theorem Regular.changeItem (h : t.Regular) {f : Item → Item}
    (hf : ∀ item, item.Regular → (f item).Regular) : (t.changeItem f p).Regular := by
  induction p, t using path_induction with
  | entry i p entries key t he ih =>
    rw [changeItem_entry he, regular_map]
    intro e hm
    rcases List.mem_or_eq_of_mem_set hm with hm | rfl
    · exact regular_map.1 h e hm
    · exact ih (regular_map.1 h _ (List.mem_of_getElem? he))
  | item j p s =>
    rw [changeItem_item, regular_seq]
    intro item hm
    obtain ⟨k, hk⟩ := List.mem_iff_getElem?.1 hm
    rw [Seq.toList, List.getElem?_modify] at hk
    obtain ⟨top, ht, rfl⟩ := Option.map_eq_some_iff.1 hk
    have hr := regular_seq.1 h top (List.mem_of_getElem? ht)
    split
    · exact hr.changeWithin hf p
    · exact hr
  | stray p t _ hc => rw [hc]; exact h

theorem Regular.changeSubtree (h : t.Regular) {f : Tree → Tree}
    (hf : ∀ t, t.Regular → (f t).Regular) : (t.changeSubtree f p).Regular :=
  everywhere_changeSubtree h fun t _ => hf t

theorem Regular.removeAt (h : t.Regular) : (t.removeAt p).tree.Regular := by
  unfold Tree.removeAt
  split
  · split
    · exact h.changeItem fun item hi => hi.removeElement _
    · refine h.changeSubtree fun t ht => ?_
      cases t with
      | map entries => exact ht
      | seq s =>
        exact regular_seq.2 fun item hm => regular_seq.1 ht item (List.mem_of_mem_eraseIdx hm)
  · exact h

mutual

/-- **Rewriting every sequence to regular items keeps a tree regular.** -/
theorem Regular.traverse {σ : Type} {f : Seq Item → σ → Seq Item × σ}
    (hf : ∀ s st, AllRegular s.toList → AllRegular (f s st).1.toList) :
    ∀ {t : Tree} (st : σ), t.Regular → (t.traverse f st).1.Regular
  | .seq s, st, h => regular_seq.2 (hf s st (regular_seq.1 h))
  | .map _, st, h => regular_map.2 (regular_traverseEntries hf st (regular_map.1 h))

theorem regular_traverseEntries {σ : Type} {f : Seq Item → σ → Seq Item × σ}
    (hf : ∀ s st, AllRegular s.toList → AllRegular (f s st).1.toList) :
    ∀ {entries : List (Key × Tree)} (st : σ), (∀ e ∈ entries, e.2.Regular) →
      ∀ e ∈ (traverseEntries f entries st).1, e.2.Regular
  | [], _, _, e, he => by cases he
  | (key, t) :: rest, st, h, e, he => by
    rcases List.mem_cons.1 he with rfl | he
    · exact Regular.traverse hf st (h _ List.mem_cons_self)
    · exact regular_traverseEntries hf _ (fun e he => h e (List.mem_cons_of_mem _ he)) e he

end

/-! ## Merging -/

theorem regular_mergeSeqs {left right items : List Item} (hl : AllRegular left)
    (hr : AllRegular right) (h : mergeSeqs left right = .ok items) : AllRegular items := by
  have happ : AllRegular (left ++ right) := fun item hi =>
    (List.mem_append.1 hi).elim (hl item) (hr item)
  unfold mergeSeqs at h
  split at h
  · rename_i a b
    split at h
    · cases h
      exact happ
    · obtain ⟨c, hm, rfl⟩ := Except.map_eq_ok.1 h
      intro item hi
      rw [List.mem_singleton] at hi
      rw [hi]
      exact Item.regular_merge (hl a List.mem_cons_self) (hr b List.mem_cons_self) hm
  · cases h
    exact happ

theorem regular_putEntry {key : Key} {added : Tree} {change : Tree → Except MergeConflict Tree}
    (ha : added.Regular) (hc : ∀ t u, t.Regular → change t = .ok u → u.Regular) :
    ∀ {entries merged : List (Key × Tree)}, (∀ e ∈ entries, e.2.Regular) →
      putEntry key added change entries = .ok merged → ∀ e ∈ merged, e.2.Regular
  | [], _, _, h => by
    cases h
    simpa using ha
  | (k, t) :: rest, merged, he, h => by
    have hrest : ∀ e ∈ rest, e.2.Regular := fun e h => he e (List.mem_cons_of_mem _ h)
    have ht := he _ List.mem_cons_self
    rw [putEntry] at h
    split at h
    · obtain ⟨u, hu, rfl⟩ := Except.map_eq_ok.1 h
      exact List.forall_mem_cons.2 ⟨hc t u ht hu, hrest⟩
    · obtain ⟨others, hm, rfl⟩ := Except.map_eq_ok.1 h
      exact List.forall_mem_cons.2 ⟨ht, regular_putEntry ha hc hrest hm⟩

mutual

theorem regular_mergeUnder (key : String) : ∀ {left right merged : Tree}, left.Regular →
    right.Regular → mergeUnder key left right = .ok merged → merged.Regular
  | left, .seq b, merged, hl, hr, h => by
    cases left with
    | map entries => cases h
    | seq a =>
      rw [mergeUnder] at h
      obtain ⟨items, hm, rfl⟩ := Except.map_eq_ok.1 h
      exact regular_seq.2 (regular_mergeSeqs (regular_seq.1 hl) (regular_seq.1 hr) hm)
  | left, .map others, merged, hl, hr, h => by
    cases left with
    | seq a => cases h
    | map entries =>
      rw [mergeUnder] at h
      obtain ⟨merged, hm, rfl⟩ := Except.map_eq_ok.1 h
      exact regular_map.2 (regular_mergeEntries (regular_map.1 hl) (regular_map.1 hr) hm)
termination_by structural _ right => right

theorem regular_mergeEntries : ∀ {entries others merged : List (Key × Tree)},
    (∀ e ∈ entries, e.2.Regular) → (∀ e ∈ others, e.2.Regular) →
      mergeEntries entries others = .ok merged → ∀ e ∈ merged, e.2.Regular
  | entries, [], merged, he, _, h => by cases h; exact he
  | entries, (key, t) :: rest, merged, he, ho, h => by
    rw [mergeEntries] at h
    obtain ⟨put, hp, h⟩ := Except.bind_eq_ok.1 h
    have ht := ho _ List.mem_cons_self
    refine regular_mergeEntries (regular_putEntry ht (fun current u hc hu => ?_) he hp)
      (fun e he => ho e (List.mem_cons_of_mem _ he)) h
    exact regular_mergeUnder (conflictKey key) hc ht hu
termination_by structural _ others => others

end

/-- **Merging regular trees makes a regular tree.** -/
theorem regular_merge {v : Tree} (ht : t.Regular) (hu : u.Regular) (h : t.merge u = .ok v) :
    v.Regular := regular_mergeUnder "" ht hu h

end Tree

end GraphQuery
