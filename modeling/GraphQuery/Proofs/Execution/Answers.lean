import GraphQuery.Endpoint
import GraphQuery.Proofs.Tree.Regular
/-!
# The two forms of an answer

Every record of the flat answer stands somewhere inside the hierarchical one, provided that nothing
is overwritten when mappings become records and repeated fields are dropped: the keys of a mapping
under which there is something are written differently, and the fields of an item have different
names (`Endpoint.flat_within`).
-/

namespace GraphQuery

/-! ## Values inside values -/

/-- One value stands inside another one, at whatever depth. -/
inductive Value.Within (v : Value) : Value → Prop where
  | refl : Within v v
  | element {w : Value} {vs : List Value} : w ∈ vs → Within v w → Within v (.list vs)
  | field {name : String} {w : Value} {item : Item} :
    (name, w) ∈ item.fields → Within v w → Within v (.record item)

namespace Value

variable {v : Value}

theorem within_list {vs : List Value} :
    v.Within (.list vs) ↔ v = .list vs ∨ ∃ w ∈ vs, v.Within w := by
  constructor
  · rintro (_ | ⟨hw, h⟩ | _)
    · exact .inl rfl
    · exact .inr ⟨_, hw, h⟩
  · rintro (rfl | ⟨w, hw, h⟩)
    · exact .refl
    · exact .element hw h

theorem within_record {item : Item} :
    v.Within (.record item) ↔ v = .record item ∨ ∃ f ∈ item.fields, v.Within f.2 := by
  constructor
  · rintro (_ | _ | ⟨hf, h⟩)
    · exact .inl rfl
    · exact .inr ⟨_, hf, h⟩
  · rintro (rfl | ⟨f, hf, h⟩)
    · exact .refl
    · exact .field hf h

def Shown (v w : Value) : Prop := v.Within w ∧ w.isVoid = false

theorem shown_list {w : Value} {vs : List Value} (hw : w ∈ vs) (h : v.Within w) :
    v.Shown (.list vs) := by
  refine ⟨.element hw h, ?_⟩
  cases vs with
  | nil => cases hw
  | cons w vs => rfl

theorem shown_record {f : String × Value} {item : Item} (hf : f ∈ item.fields)
    (h : v.Within f.2) : v.Shown (.record item) := by
  refine ⟨.field hf h, ?_⟩
  obtain ⟨fields⟩ := item
  cases fields with
  | nil => cases hf
  | cons f fields => rfl

end Value

/-! ## Pruning -/

theorem pruneValues_eq (vs : List Value) :
    pruneValues vs = (vs.map Value.prune).filter fun v => !v.isVoid := by
  induction vs with
  | nil => rfl
  | cons v rest ih =>
    rw [pruneValues, ih, List.map_cons, List.filter_cons]
    cases v.prune.isVoid <;> rfl

theorem pruneFields_eq (fields : List (String × Value)) : pruneFields fields =
    (fields.map fun f => (f.1, f.2.prune)).filter fun f => !f.2.isVoid := by
  induction fields with
  | nil => rfl
  | cons f rest ih =>
    obtain ⟨name, v⟩ := f
    rw [pruneFields, ih, List.map_cons, List.filter_cons]
    cases v.prune.isVoid <;> rfl

theorem mem_pruneValues {w : Value} {vs : List Value} :
    w ∈ pruneValues vs ↔ ∃ v ∈ vs, v.prune.isVoid = false ∧ v.prune = w := by
  rw [pruneValues_eq, List.mem_filter, List.mem_map, Bool.not_eq_true']
  constructor
  · rintro ⟨⟨v, hv, rfl⟩, h⟩
    exact ⟨v, hv, h, rfl⟩
  · rintro ⟨v, hv, h, rfl⟩
    exact ⟨⟨v, hv, rfl⟩, h⟩

theorem mem_pruneFields {g : String × Value} {fields : List (String × Value)} :
    g ∈ pruneFields fields ↔ ∃ f ∈ fields, f.2.prune.isVoid = false ∧ (f.1, f.2.prune) = g := by
  rw [pruneFields_eq, List.mem_filter, List.mem_map, Bool.not_eq_true']
  constructor
  · rintro ⟨⟨f, hf, rfl⟩, h⟩
    exact ⟨f, hf, h, rfl⟩
  · rintro ⟨f, hf, h, rfl⟩
    exact ⟨⟨f, hf, rfl⟩, h⟩

theorem nodup_pruneFields {fields : List (String × Value)} (h : (fields.map Prod.fst).Nodup) :
    ((pruneFields fields).map Prod.fst).Nodup := by
  have hsub := (List.filter_sublist (p := fun f : String × Value => !f.2.isVoid)
    (l := fields.map fun f => (f.1, f.2.prune))).map Prod.fst
  rw [← pruneFields_eq, List.map_map] at hsub
  exact h.sublist hsub

namespace Value

variable {v w : Value}

theorem shown_prune_list {vs : List Value} (hw : w ∈ vs) (h : v.Shown w.prune) :
    v.Shown (Value.list vs).prune :=
  shown_list (mem_pruneValues.2 ⟨w, hw, h.2, rfl⟩) h.1

theorem shown_prune_record {item : Item} {name : String} (hn : item.names.Nodup)
    (hf : (name, w) ∈ item.fields) (h : v.Shown w.prune) : v.Shown (Value.record item).prune := by
  obtain ⟨fields⟩ := item
  rw [prune, Record.ofFields_of_nodup (nodup_pruneFields hn)]
  refine shown_record (f := (name, w.prune)) ?_ h.1
  rw [pruneFields_eq, List.mem_filter]
  exact ⟨List.mem_map.2 ⟨_, hf, rfl⟩, by rw [h.2]; rfl⟩

end Value

/-! ## Leaves inside items -/

variable {l : List Value → Bool}

/-- **A leaf that is not void is shown in the item that it is below.** -/
theorem Item.shown_prune {item : Item} (h : item.everywhere hasDistinctNames l = true) {leaf : Leaf}
    (hm : leaf ∈ item.leaves) (hv : (Value.record leaf.item).prune.isVoid = false) :
    (Value.record leaf.item).prune.Shown (Value.record item).prune := by
  induction item using item_induction generalizing leaf with
  | step item ih =>
    rw [leaves_eq] at hm
    split at hm
    · rw [List.mem_singleton.1 hm] at hv ⊢
      exact ⟨.refl, hv⟩
    · obtain ⟨name, vs, k, inner, l', hf, -, hk, hl', rfl⟩ := mem_leavesOfFields_iff.1 hm
      obtain ⟨hn, hvs⟩ := everywhere_iff.1 h
      have hr := List.mem_of_getElem? hk
      have hinner := ih name vs inner hf hr ((Value.everywhere_list.1 (hvs _ hf)).2 _ hr) hl' hv
      exact Value.shown_prune_record (of_decide_eq_true hn) hf (Value.shown_prune_list hr hinner)

/-! ## Items inside trees -/

namespace Tree

def answered (anonymous : String) (entries : List (Key × Tree)) : List (String × Value) :=
  (entries.map fun e => (e.1.render anonymous, e.2.toValue anonymous)).filter fun f => !f.2.isVoid

mutual

/-- Whether the keys of a mapping under which there is something are written differently. -/
def keysApart (anonymous : String) : Tree → Bool
  | seq _ => true
  | map entries => decide ((answered anonymous entries).map Prod.fst).Nodup &&
      keysApartBelow anonymous entries
termination_by structural t => t

def keysApartBelow (anonymous : String) : List (Key × Tree) → Bool
  | [] => true
  | (_, t) :: rest => t.keysApart anonymous && keysApartBelow anonymous rest
termination_by structural entries => entries

end

variable {anonymous : String} {v : Value}

theorem keysApartBelow_iff : ∀ {entries : List (Key × Tree)},
    keysApartBelow anonymous entries = true ↔ ∀ e ∈ entries, e.2.keysApart anonymous = true
  | [] => by simp [keysApartBelow]
  | (key, t) :: rest => by
    rw [keysApartBelow, Bool.and_eq_true, keysApartBelow_iff, List.forall_mem_cons]

theorem entriesToRecord_eq : ∀ (entries : List (Key × Tree)) (r : Item),
    entriesToRecord anonymous r entries =
      (answered anonymous entries).foldl (fun r f => r.set f.1 f.2) r
  | [], _ => rfl
  | (key, t) :: rest, r => by
    rw [entriesToRecord, entriesToRecord_eq rest, answered, answered, List.map_cons,
      List.filter_cons]
    cases (t.toValue anonymous).isVoid <;> simp

theorem toValue_map {entries : List (Key × Tree)}
    (h : ((answered anonymous entries).map Prod.fst).Nodup) :
    (map entries).toValue anonymous = .record ⟨answered anonymous entries⟩ := by
  have hadd := Record.foldl_of_new (r := .empty) (fun _ _ _ => Record.set_of_new (V := Value)) h
  rw [toValue, entriesToRecord_eq, hadd]
  rfl

/-- **What is shown of an item of a tree is shown of the tree.** -/
theorem shown_toValue {t : Tree} (h : t.keysApart anonymous = true) {s : Seq Item}
    (hs : s ∈ t.seqs) {top : Item} (ht : top ∈ s.toList)
    (hv : v.Shown (Value.record top).prune) : v.Shown (t.toValue anonymous) := by
  induction t using tree_induction with
  | seq s' =>
    rw [List.mem_singleton.1 hs] at ht
    exact Value.shown_prune_list (List.mem_map_of_mem ht) hv
  | map entries ih =>
    rw [keysApart, Bool.and_eq_true, decide_eq_true_eq, keysApartBelow_iff] at h
    obtain ⟨e, he, hs⟩ := mem_seqsOfEntries.1 hs
    have hshown := ih e he (h.2 e he) hs
    rw [toValue_map h.1]
    -- the entry is in the record, because it is not void and no other one is written like it
    refine Value.shown_record (f := (e.1.render anonymous, e.2.toValue anonymous)) ?_ hshown.1
    rw [answered, List.mem_filter]
    exact ⟨List.mem_map.2 ⟨e, he, rfl⟩, by rw [hshown.2]; rfl⟩

end Tree

/-! ## Answers -/

/--
**Every record of the flat answer stands inside the hierarchical one**, however the anonymous key is
written, if the keys of every mapping under which there is something are written differently and no
item holds two fields of one name.
-/
theorem Endpoint.flat_within (e : Endpoint) (s : Session)
    (hk : s.tree.keysApart e.anonymousKey = true)
    (hn : s.tree.Everywhere Item.hasDistinctNames fun _ => true) :
    ∀ v ∈ s.flat, v.Within (e.toValue s) := by
  intro v hv
  obtain ⟨w, hw, hvoid, rfl⟩ := mem_pruneValues.1 hv
  obtain ⟨item, hi, rfl⟩ := List.mem_map.1 hw
  rw [Tree.leafFlow, Tree.toList_flowOfLeaves, Tree.itemFlow, Flow.toList_join,
    List.flatMap_map] at hi
  obtain ⟨top, htop, hleaf⟩ := List.mem_flatMap.1 hi
  obtain ⟨items, hs, ht⟩ := List.mem_flatMap.1 htop
  obtain ⟨leaf, hl, rfl⟩ := List.mem_map.1 hleaf
  rw [Seq.toList_flow] at ht
  exact (Tree.shown_toValue hk hs ht (Item.shown_prune (hn items hs top ht) hl hvoid)).1

/-- Two branches under different keys, one of them nested: both records are in both answers. -/
theorem Endpoint.flat_within_branches :
    let e : Endpoint :=
      { schema := .default, backend := .ofFunctions (fun _ => .ok []) fun _ _ => .ok [] }
    let p : Plan := .combine .merge [.nest "a" (.literal [.int 1]), .nest "b" (.literal [.int 2])]
    let s : Session := { tree := .map [
      (.name "a", .anon (.lazy (.ofList [.ofId (.int 1)]))),
      (.name "b", .anon (.lazy (.ofList [.ofId (.int 2)])))] }
    e.run p (e.start .empty) = .ok () ⟨s, {}⟩ ∧ s.tree.keysApart e.anonymousKey = true ∧
      s.tree.Everywhere Item.hasDistinctNames (fun _ => true) ∧
      s.flat = [.record (.ofId (.int 1)), .record (.ofId (.int 2))] ∧
      ∀ v ∈ s.flat, v.Within (e.toValue s) := by
  intro e p s
  have hk : s.tree.keysApart e.anonymousKey = true := rfl
  have hn : s.tree.Everywhere Item.hasDistinctNames fun _ => true := by
    show ∀ items ∈ s.tree.seqs, ∀ item ∈ items.toList,
      item.everywhere Item.hasDistinctNames (fun _ => true) = true
    decide
  exact ⟨rfl, hk, hn, rfl, flat_within e s hk hn⟩

/-- Two objects of a document with the same key: the second branch overwrites the first one. -/
theorem Endpoint.flat_overwritten :
    let e : Endpoint :=
      { schema := .default, backend := .ofFunctions (fun _ => .ok []) fun _ _ => .ok [] }
    let p : Plan := .json (.array [.object [("a", .array [.object [(":id", .int 1)]])],
      .object [("a", .array [.object [(":id", .int 2)]])]])
    let s : Session := { tree := .map [(.name "a", .seq (.buffered [.ofId (.int 1)])),
      (.name "a", .seq (.buffered [.ofId (.int 2)]))] }
    e.run p (e.start .empty) = .ok () ⟨s, {}⟩ ∧ ¬ ∀ v ∈ s.flat, v.Within (e.toValue s) := by
  intro e p s
  refine ⟨rfl, fun h => ?_⟩
  have hone := h (.record (.ofId (.int 1))) List.mem_cons_self
  have htree : e.toValue s = .record ⟨[("a", .list [.record (.ofId (.int 2))])]⟩ := rfl
  rw [htree, Value.within_record] at hone
  obtain hone | ⟨f, hf, hone⟩ := hone
  · simp [Record.ofId, idField] at hone
  · rw [List.mem_singleton.1 hf, Value.within_list] at hone
    obtain hone | ⟨w, hw, hone⟩ := hone
    · cases hone
    · rw [List.mem_singleton.1 hw, Value.within_record] at hone
      obtain hone | ⟨f, hf, hone⟩ := hone
      · simp [Record.ofId] at hone
      · rw [List.mem_singleton.1 hf] at hone
        cases hone

end GraphQuery
