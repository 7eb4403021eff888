import GraphQuery.Proofs.Value.Everywhere
import GraphQuery.Tree.Leaves
/-!
# Where leaves are

Every leaf of a tree is found at its path, and the paths of different leaves lie apart, provided
that every field on the way can be written: it is not an identifier, and no other field has its name
(`Tree.itemAt?_leaf`, `Tree.leaves_apart`).  This is so when the field names of every record are
distinct and no identifier nests items itself (`Tree.itemAt?_of_mem_leaves`,
`Tree.pairwise_apart_leaves`).
-/

namespace GraphQuery

/-- Whether field names are distinct and the identifier does not nest items. -/
def Item.isAddressable (item : Item) : Bool :=
  decide item.names.Nodup && !item.id?.any Value.nestsItems

/-- Whether a field that nests items is not the identifier and has its name for itself. -/
def Item.isOpen (item : Item) : Bool := item.fields.all fun f =>
  !f.2.nestsItems || (decide (f.1 ≠ idField) && decide (item.names.count f.1 = 1))

theorem Item.isOpen_iff {item : Item} : item.isOpen = true ↔
    ∀ f ∈ item.fields, f.2.nestsItems = true → f.1 ≠ idField ∧ item.names.count f.1 = 1 := by
  rw [isOpen, List.all_eq_true]
  refine forall₂_congr fun f _ => ?_
  rw [Bool.or_eq_true, Bool.not_eq_true', Bool.and_eq_true, decide_eq_true_eq, decide_eq_true_eq]
  cases f.2.nestsItems <;> simp

theorem Item.isAddressable_of_isSound {item : Item} (h : item.isSound = true) :
    item.isAddressable = true := by
  unfold isSound at h
  unfold isAddressable
  rw [Bool.and_eq_true] at h ⊢
  refine ⟨h.1, ?_⟩
  cases hid : item.id? with
  | none => rfl
  | some v =>
    have hv := h.2
    rw [hid] at hv
    cases v <;> first | rfl | cases hv

theorem Tree.Sound.addressable {t : Tree} (h : t.Sound) :
    t.Everywhere Item.isAddressable fun _ => true :=
  h.mono (fun _ => Item.isAddressable_of_isSound) fun _ h => h

/-- **Induction over the records in list fields.** -/
theorem Item.item_induction {motive : Item → Prop}
    (step : ∀ item : Item, (∀ name vs inner, (name, Value.list vs) ∈ item.fields →
      Value.record inner ∈ vs → motive inner) → motive item) (item : Item) : motive item :=
  step item fun _name _vs inner _hf _hv => item_induction step inner
termination_by sizeOf item
decreasing_by
  obtain ⟨fields⟩ := item
  have h1 := List.sizeOf_lt_of_mem _hf
  have h2 := List.sizeOf_lt_of_mem _hv
  simp only [Prod.mk.sizeOf_spec, Value.list.sizeOf_spec, Value.record.sizeOf_spec] at h1 h2
  simp only [Record.mk.sizeOf_spec]
  omega

theorem Item.leaves_eq (item : Item) :
    item.leaves = if item.isLeaf then [⟨[], item⟩] else leavesOfFields item.fields := by
  obtain ⟨fields⟩ := item
  rfl

theorem Item.leaves_of_isLeaf {item : Item} (h : item.isLeaf = true) :
    item.leaves = [⟨[], item⟩] := by
  rw [leaves_eq, if_pos h]

def indexedLeaves {α : Type} (step : Nat → Step) (below : α → List Leaf) :
    Nat → List α → List Leaf
  | _, [] => []
  | index, a :: rest =>
    (below a).map (Leaf.under (step index)) ++ indexedLeaves step below (index + 1) rest

theorem leavesOfElements_eq : ∀ (index : Nat) (vs : List Value),
    leavesOfElements index vs = indexedLeaves .item Value.leavesAt index vs
  | _, [] => rfl
  | index, v :: rest => by rw [leavesOfElements, indexedLeaves, leavesOfElements_eq]

theorem leavesOfItems_eq : ∀ (index : Nat) (items : List Item),
    leavesOfItems index items = indexedLeaves .item Item.leaves index items
  | _, [] => rfl
  | index, item :: rest => by rw [leavesOfItems, indexedLeaves, leavesOfItems_eq]

theorem Tree.leavesOfEntries_eq : ∀ (index : Nat) (entries : List (Key × Tree)),
    leavesOfEntries index entries = indexedLeaves .entry (fun e => e.2.leaves) index entries
  | _, [] => rfl
  | index, e :: rest => by rw [leavesOfEntries, indexedLeaves, leavesOfEntries_eq]

theorem mem_indexedLeaves {α : Type} {step : Nat → Step} {below : α → List Leaf} {l : Leaf} :
    ∀ {index : Nat} {xs : List α}, l ∈ indexedLeaves step below index xs ↔
      ∃ (k : Nat) (a : α) (l' : Leaf), xs[k]? = some a ∧ l' ∈ below a ∧
        l = l'.under (step (index + k))
  | index, [] => by simp [indexedLeaves]
  | index, a :: rest => by
    rw [indexedLeaves, List.mem_append, mem_indexedLeaves, List.mem_map]
    constructor
    · rintro (⟨l', hl', rfl⟩ | ⟨k, b, l', hk, hl', rfl⟩)
      · exact ⟨0, a, l', rfl, hl', rfl⟩
      · exact ⟨k + 1, b, l', hk, hl', by rw [Nat.add_right_comm, Nat.add_assoc]⟩
    · rintro ⟨k, b, l', hk, hl', rfl⟩
      cases k with
      | zero =>
        cases hk
        exact .inl ⟨l', hl', rfl⟩
      | succ k => exact .inr ⟨k, b, l', hk, hl', by rw [Nat.add_right_comm, Nat.add_assoc]⟩

theorem mem_leavesOfFields {l : Leaf} : ∀ {fields : List (String × Value)},
    l ∈ leavesOfFields fields ↔
      ∃ f ∈ fields, ∃ l' ∈ f.2.leavesBelow, l = l'.under (.field f.1)
  | [] => by simp [leavesOfFields]
  | (name, v) :: rest => by
    rw [leavesOfFields, List.mem_append, mem_leavesOfFields, List.mem_map]
    simp only [List.mem_cons, exists_eq_or_imp, eq_comm]

theorem mem_leavesBelow {v : Value} {l : Leaf} : l ∈ v.leavesBelow ↔
    ∃ vs, v = .list vs ∧ v.nestsItems = true ∧ l ∈ leavesOfElements 0 vs := by
  cases v with
  | list vs =>
    rw [Value.leavesBelow]
    split
    · rename_i h
      simp [h]
    · rename_i h
      simp [h]
  | _ => simp [Value.leavesBelow]

theorem mem_leavesOfFields_iff {fields : List (String × Value)} {l : Leaf} :
    l ∈ leavesOfFields fields ↔ ∃ (name : String) (vs : List Value) (k : Nat) (inner : Item)
      (l' : Leaf), (name, Value.list vs) ∈ fields ∧
      (Value.list vs).nestsItems = true ∧ vs[k]? = some (.record inner) ∧ l' ∈ inner.leaves ∧
        l = ⟨.field name :: .item k :: l'.path, l'.item⟩ := by
  rw [mem_leavesOfFields]
  constructor
  · rintro ⟨⟨name, v⟩, hf, l', hl', rfl⟩
    obtain ⟨vs, rfl, hn, hl'⟩ := mem_leavesBelow.1 hl'
    rw [leavesOfElements_eq] at hl'
    obtain ⟨k, v, l'', hk, hl'', rfl⟩ := mem_indexedLeaves.1 hl'
    cases v with
    | record inner => exact ⟨name, vs, k, inner, l'', hf, hn, hk, hl'', by simp [Leaf.under]⟩
    | _ => cases hl''
  · rintro ⟨name, vs, k, inner, l', hf, hn, hk, hl', rfl⟩
    refine ⟨_, hf, l'.under (.item k), mem_leavesBelow.2 ⟨vs, rfl, hn, ?_⟩, rfl⟩
    rw [leavesOfElements_eq]
    exact mem_indexedLeaves.2 ⟨k, _, l', hk, hl', by rw [Nat.zero_add]⟩

namespace Item

theorem isLeaf_of_mem_leaves {item : Item} {l : Leaf} (h : l ∈ item.leaves) :
    l.item.isLeaf = true := by
  induction item using item_induction generalizing l with
  | step item ih =>
    rw [leaves_eq] at h
    split at h
    · rename_i hl
      rw [List.mem_singleton.1 h]
      exact hl
    · obtain ⟨name, vs, k, inner, l', hf, -, hk, hl', rfl⟩ := mem_leavesOfFields_iff.1 h
      show l'.item.isLeaf = true
      exact ih name vs inner hf (List.mem_of_getElem? hk) hl'

theorem lookup_of_count {V : Type} {name : String} {v : V} : ∀ {fields : List (String × V)},
    (fields.map Prod.fst).count name = 1 → (name, v) ∈ fields → Record.lookup name fields = some v
  | [], _, h => by cases h
  | (n, w) :: rest, hc, h => by
    rw [List.map_cons, List.count_cons] at hc
    simp only [Record.lookup]
    rcases List.mem_cons.1 h with h | h
    · cases h
      rw [if_pos rfl]
    · have hpos : 0 < (rest.map Prod.fst).count name :=
        List.count_pos_iff.2 (List.mem_map_of_mem (f := Prod.fst) h)
      have hne : n ≠ name := fun he => by
        simp only [he, beq_self_eq_true, if_true] at hc
        omega
      simp only [beq_iff_eq, hne, if_false, Nat.add_zero] at hc
      rw [if_neg hne, lookup_of_count hc h]

theorem isOpen_of_isAddressable {item : Item} (h : item.isAddressable = true) :
    item.isOpen = true := by
  simp only [isAddressable, Bool.and_eq_true, decide_eq_true_eq, Bool.not_eq_true'] at h
  refine isOpen_iff.2 fun f hf hn => ⟨fun he => ?_, ?_⟩
  · have hid : item.id? = some f.2 := Record.lookup_of_mem h.1 (he ▸ hf)
    rw [hid, Option.any_some, hn] at h
    cases h.2
  · rw [h.1.count]
    exact if_pos (List.mem_map_of_mem hf)

theorem everywhere_isOpen {l : List Value → Bool} {item : Item}
    (h : item.everywhere isAddressable l = true) : item.everywhere isOpen l = true :=
  Value.everywhere_mono (fun _ => isOpen_of_isAddressable) (fun _ h => h) (.record item) h

theorem elements?_of_mem {item : Item} (h : item.isOpen = true) {name : String}
    {vs : List Value} (hf : (name, Value.list vs) ∈ item.fields)
    (hn : (Value.list vs).nestsItems = true) : item.elements? name = some vs := by
  obtain ⟨hne, hc⟩ := isOpen_iff.1 h _ hf hn
  have hg : item.get? name = some (.list vs) := lookup_of_count hc hf
  rw [elements?_eq_some, Record.writable?, if_neg hne, hg]

variable {l : List Value → Bool}

theorem within?_of_mem_leaves {item : Item} (h : item.everywhere isOpen l = true)
    {leaf : Leaf} (hm : leaf ∈ item.leaves) : within? leaf.path item = some leaf.item := by
  induction item using item_induction generalizing leaf with
  | step item ih =>
    rw [leaves_eq] at hm
    split at hm
    · rw [List.mem_singleton.1 hm]
      rfl
    · obtain ⟨name, vs, k, inner, l', hf, hn, hk, hl', rfl⟩ := mem_leavesOfFields_iff.1 hm
      have hc := child?_eq_some.2 ⟨vs, elements?_of_mem (everywhere_iff.1 h).1 hf hn, hk⟩
      rw [within?_cons_cons, hc, Option.bind_some]
      exact ih name vs inner hf (List.mem_of_getElem? hk) (everywhere_child? h hc) hl'

theorem everywhere_of_mem_leaves {r : Item → Bool} {item : Item}
    (h : item.everywhere r l = true) {leaf : Leaf} (hm : leaf ∈ item.leaves) :
    leaf.item.everywhere r l = true := by
  induction item using item_induction generalizing leaf with
  | step item ih =>
    rw [leaves_eq] at hm
    split at hm
    · rw [List.mem_singleton.1 hm]
      exact h
    · obtain ⟨name, vs, k, inner, l', hf, -, hk, hl', rfl⟩ := mem_leavesOfFields_iff.1 hm
      have hv := List.mem_of_getElem? hk
      have hl := Value.everywhere_list.1 ((everywhere_iff.1 h).2 _ hf)
      show l'.item.everywhere r l = true
      exact ih name vs inner hf hv (hl.2 _ hv) hl'

end Item

/-! ## Leaves lie apart -/

def Leaf.Apart (a b : Leaf) : Prop := a.path.Apart b.path

theorem pairwise_apart_map_under {s : Step} {ls : List Leaf} (h : ls.Pairwise Leaf.Apart) :
    (ls.map (Leaf.under s)).Pairwise Leaf.Apart :=
  List.pairwise_map.2 (h.imp fun h => Path.apart_cons.2 (.inr h))

theorem apart_under {s s' : Step} (h : s ≠ s') (a b : Leaf) : (a.under s).Apart (b.under s') :=
  Path.apart_cons.2 (.inl h)

theorem pairwise_apart_indexedLeaves {α : Type} {step : Nat → Step}
    (hs : ∀ i j, step i = step j → i = j) {below : α → List Leaf} : ∀ (index : Nat) (xs : List α),
    (∀ a ∈ xs, (below a).Pairwise Leaf.Apart) →
      (indexedLeaves step below index xs).Pairwise Leaf.Apart
  | _, [], _ => .nil
  | index, a :: rest, h => by
    rw [indexedLeaves, List.pairwise_append]
    refine ⟨pairwise_apart_map_under (h a List.mem_cons_self),
      pairwise_apart_indexedLeaves hs (index + 1) rest
        fun b hb => h b (List.mem_cons_of_mem _ hb), fun x hx y hy => ?_⟩
    obtain ⟨x', -, rfl⟩ := List.mem_map.1 hx
    obtain ⟨k, _, y', -, -, rfl⟩ := mem_indexedLeaves.1 hy
    exact apart_under (fun he => by have := hs _ _ he; omega) x' y'

theorem nestsItems_of_mem_leavesBelow {v : Value} {leaf : Leaf} (h : leaf ∈ v.leavesBelow) :
    v.nestsItems = true := by
  obtain ⟨vs, -, hn, -⟩ := mem_leavesBelow.1 h
  exact hn

theorem pairwise_apart_leavesOfFields : ∀ (fields : List (String × Value)),
    (∀ f ∈ fields, f.2.nestsItems = true → (fields.map Prod.fst).count f.1 ≤ 1) →
      (∀ f ∈ fields, f.2.leavesBelow.Pairwise Leaf.Apart) →
        (leavesOfFields fields).Pairwise Leaf.Apart
  | [], _, _ => .nil
  | (name, v) :: rest, hn, h => by
    have hcount : ∀ f ∈ rest, f.2.nestsItems = true →
        (rest.map Prod.fst).count f.1 + (if name = f.1 then 1 else 0) ≤ 1 := fun f hf hv => by
      have := hn f (List.mem_cons_of_mem _ hf) hv
      rw [List.map_cons, List.count_cons] at this
      simpa using this
    rw [leavesOfFields, List.pairwise_append]
    refine ⟨pairwise_apart_map_under (h _ List.mem_cons_self),
      pairwise_apart_leavesOfFields rest (fun f hf hv => Nat.le_of_add_right_le (hcount f hf hv))
        fun f hf => h f (List.mem_cons_of_mem _ hf),
      fun a ha b hb => ?_⟩
    obtain ⟨a', -, rfl⟩ := List.mem_map.1 ha
    obtain ⟨f, hf, b', hb', rfl⟩ := mem_leavesOfFields.1 hb
    refine apart_under (fun he => ?_) a' b'
    cases he
    have hle := hcount f hf (nestsItems_of_mem_leavesBelow hb')
    have hpos := List.count_pos_iff.2 (List.mem_map_of_mem (f := Prod.fst) hf)
    rw [if_pos rfl] at hle
    omega

variable {l : List Value → Bool}

theorem Item.pairwise_apart_leaves {item : Item}
    (h : item.everywhere Item.isOpen l = true) : item.leaves.Pairwise Leaf.Apart := by
  induction item using Item.item_induction with
  | step item ih =>
    rw [leaves_eq]
    split
    · exact List.pairwise_singleton _ _
    · obtain ⟨hr, hf⟩ := everywhere_iff.1 h
      refine pairwise_apart_leavesOfFields _
        (fun f hm hn => Nat.le_of_eq (isOpen_iff.1 hr f hm hn).2) fun f hm => ?_
      obtain ⟨name, v⟩ := f
      cases v with
      | list vs =>
        rw [Value.leavesBelow]
        split
        · rw [leavesOfElements_eq]
          refine pairwise_apart_indexedLeaves (fun _ _ he => by injection he) 0 vs fun v hv => ?_
          cases v with
          | record inner =>
            exact ih name vs inner hm hv ((Value.everywhere_list.1 (hf _ hm)).2 _ hv)
          | _ => exact .nil
        · exact .nil
      | _ => exact .nil

/-! ## Leaves of trees -/

namespace Tree

mutual

/-- **Induction over the subtrees under keys.** -/
theorem tree_induction {motive : Tree → Prop} (seq : ∀ s, motive (seq s))
    (map : ∀ entries : List (Key × Tree), (∀ e ∈ entries, motive e.2) → motive (map entries)) :
    ∀ t : Tree, motive t
  | .seq s => seq s
  | .map entries => map entries (entries_induction seq map entries)

theorem entries_induction {motive : Tree → Prop} (seq : ∀ s, motive (.seq s))
    (map : ∀ entries : List (Key × Tree), (∀ e ∈ entries, motive e.2) → motive (.map entries)) :
    ∀ (entries : List (Key × Tree)), ∀ e ∈ entries, motive e.2
  | [], _, h => by cases h
  | (key, t) :: rest, e, h => by
    rcases List.mem_cons.1 h with rfl | h
    · exact tree_induction seq map t
    · exact entries_induction seq map rest e h

end

theorem leaves_seq (s : Seq Item) :
    (seq s).leaves = indexedLeaves .item Item.leaves 0 s.toList := leavesOfItems_eq 0 _

theorem leaves_map (entries : List (Key × Tree)) :
    (map entries).leaves = indexedLeaves .entry (fun e => e.2.leaves) 0 entries :=
  leavesOfEntries_eq 0 entries

variable {t : Tree}

theorem isLeaf_of_mem_leaves {leaf : Leaf} (h : leaf ∈ t.leaves) : leaf.item.isLeaf = true := by
  induction t using tree_induction generalizing leaf with
  | seq s =>
    rw [leaves_seq] at h
    obtain ⟨k, item, l', -, hl', rfl⟩ := mem_indexedLeaves.1 h
    show l'.item.isLeaf = true
    exact Item.isLeaf_of_mem_leaves hl'
  | map entries ih =>
    rw [leaves_map] at h
    obtain ⟨k, e, l', hk, hl', rfl⟩ := mem_indexedLeaves.1 h
    show l'.item.isLeaf = true
    exact ih e (List.mem_of_getElem? hk) hl'

/-- **A leaf is found at its path.** -/
theorem itemAt?_leaf (h : t.Everywhere Item.isOpen l) {leaf : Leaf}
    (hm : leaf ∈ t.leaves) : t.itemAt? leaf.path = some leaf.item := by
  induction t using tree_induction generalizing leaf with
  | seq s =>
    rw [leaves_seq] at hm
    obtain ⟨k, item, l', hk, hl', rfl⟩ := mem_indexedLeaves.1 hm
    rw [Nat.zero_add, Leaf.under, itemAt?_item, hk, Option.bind_some]
    exact Item.within?_of_mem_leaves (everywhere_seq.1 h _ (List.mem_of_getElem? hk)) hl'
  | map entries ih =>
    rw [leaves_map] at hm
    obtain ⟨k, e, l', hk, hl', rfl⟩ := mem_indexedLeaves.1 hm
    have he := List.mem_of_getElem? hk
    rw [Nat.zero_add, Leaf.under, itemAt?_entry, hk, Option.bind_some]
    exact ih e he (everywhere_map.1 h e he) hl'

theorem everywhere_of_mem_leaves {r : Item → Bool} (h : t.Everywhere r l) {leaf : Leaf}
    (hm : leaf ∈ t.leaves) : leaf.item.everywhere r l = true := by
  induction t using tree_induction generalizing leaf with
  | seq s =>
    rw [leaves_seq] at hm
    obtain ⟨k, item, l', hk, hl', rfl⟩ := mem_indexedLeaves.1 hm
    show l'.item.everywhere r l = true
    exact Item.everywhere_of_mem_leaves (everywhere_seq.1 h _ (List.mem_of_getElem? hk)) hl'
  | map entries ih =>
    rw [leaves_map] at hm
    obtain ⟨k, e, l', hk, hl', rfl⟩ := mem_indexedLeaves.1 hm
    have he := List.mem_of_getElem? hk
    show l'.item.everywhere r l = true
    exact ih e he (everywhere_map.1 h e he) hl'

/-- **Leaves lie apart.** -/
theorem leaves_apart (h : t.Everywhere Item.isOpen l) : t.leaves.Pairwise Leaf.Apart := by
  induction t using tree_induction with
  | seq s =>
    rw [leaves_seq]
    exact pairwise_apart_indexedLeaves (fun _ _ he => by injection he) 0 _ fun item hi =>
      Item.pairwise_apart_leaves (everywhere_seq.1 h item hi)
  | map entries ih =>
    rw [leaves_map]
    exact pairwise_apart_indexedLeaves (fun _ _ he => by injection he) 0 _ fun e he =>
      ih e he (everywhere_map.1 h e he)

theorem Everywhere.isOpen (h : t.Everywhere Item.isAddressable l) : t.Everywhere Item.isOpen l :=
  h.mono (fun _ => Item.isOpen_of_isAddressable) fun _ h => h

theorem itemAt?_of_mem_leaves (h : t.Everywhere Item.isAddressable l) {leaf : Leaf}
    (hm : leaf ∈ t.leaves) : t.itemAt? leaf.path = some leaf.item := itemAt?_leaf h.isOpen hm

theorem pairwise_apart_leaves (h : t.Everywhere Item.isAddressable l) :
    t.leaves.Pairwise Leaf.Apart := leaves_apart h.isOpen

end Tree

end GraphQuery
