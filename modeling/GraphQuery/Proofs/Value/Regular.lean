import GraphQuery.Execution.Branch
import GraphQuery.Operation.Merge
import GraphQuery.Operation.Transform
import GraphQuery.Proofs.Tree.Removal
/-!
# Regular items

An item is regular when, at every depth, field names are distinct, identifiers are scalars and no
list stands directly in a list.  Which fields an item has and what is found in them decides
(`Item.regular_iff`), so whatever sets fields to regular values keeps items regular: the operations
on records, and from these merging, grouping, binding and the changes inside an item.
-/

namespace GraphQuery

/-- Whether no list stands directly in a list. -/
def flat (vs : List Value) : Bool := vs.all fun v => v.kind ≠ .list

def Value.Regular (v : Value) : Prop := v.everywhere Item.isSound flat = true

def Item.Regular (item : Item) : Prop := item.everywhere Item.isSound flat = true

instance (v : Value) : Decidable v.Regular := inferInstanceAs (Decidable (_ = true))

instance (item : Item) : Decidable item.Regular := inferInstanceAs (Decidable (_ = true))

def Value.Fits (v : Value) (name : String) : Prop :=
  v.Regular ∧ (name = idField → v.isScalar = true)

/-! ## Values -/

namespace Value

variable {vs ws : List Value} {v : Value}

theorem regular_list : (list vs).Regular ↔ flat vs = true ∧ ∀ v ∈ vs, v.Regular := everywhere_list

theorem regular_of_isScalar (h : v.isScalar = true) : v.Regular := everywhere_of_isScalar h

theorem fits_of_isScalar (h : v.isScalar = true) (name : String) : v.Fits name :=
  ⟨regular_of_isScalar h, fun _ => h⟩

theorem Regular.fits {name : String} (h : v.Regular) (hn : name ≠ idField) : v.Fits name :=
  ⟨h, fun he => absurd he hn⟩

def IsElement (v : Value) : Prop := v.kind ≠ .list ∧ v.Regular

theorem regular_list_iff : (list vs).Regular ↔ ∀ v ∈ vs, v.IsElement := by
  rw [regular_list, flat, List.all_eq_true]
  simp only [decide_eq_true_eq]
  constructor
  · intro h v hv
    exact ⟨h.1 v hv, h.2 v hv⟩
  · intro h
    exact ⟨fun v hv => (h v hv).1, fun v hv => (h v hv).2⟩

theorem isElement_record {item : Item} : (record item).IsElement ↔ item.Regular := by
  constructor
  · exact And.right
  · intro h
    exact ⟨by simp [kind], h⟩

theorem isElement_of_isScalar (h : v.isScalar = true) : v.IsElement := by
  refine ⟨?_, regular_of_isScalar h⟩
  simp only [isScalar, Bool.and_eq_true, decide_eq_true_eq] at h
  exact h.1

theorem regular_list_records {items : List Item} :
    (list (items.map record)).Regular ↔ ∀ item ∈ items, item.Regular := by
  rw [regular_list_iff]
  simp only [List.forall_mem_map, isElement_record]

end Value

/-! ## Setting fields -/

namespace Item

variable {item : Item} {name : String} {v : Value}

/-- **An item is regular when its names are distinct and what is found under them fits.** -/
theorem regular_iff : item.Regular ↔
    item.names.Nodup ∧ ∀ name v, item.get? name = some v → v.Fits name := by
  rw [Regular, everywhere_iff, isSound, Bool.and_eq_true, decide_eq_true_eq]
  constructor
  · rintro ⟨⟨hn, hid⟩, hf⟩
    refine ⟨hn, fun name v hv => ⟨hf _ (Record.mem_of_lookup hv), ?_⟩⟩
    rintro rfl
    rw [show item.id? = some v from hv] at hid
    exact hid
  · rintro ⟨hn, hv⟩
    refine ⟨⟨hn, ?_⟩, fun f hf => (hv f.1 f.2 (Record.lookup_of_mem hn hf)).1⟩
    cases hid : item.id? with
    | none => rfl
    | some v => exact (hv idField v hid).2 rfl

theorem Regular.get? (h : item.Regular) (hv : item.get? name = some v) : v.Fits name :=
  (regular_iff.1 h).2 name v hv

theorem regular_empty : Regular Record.empty :=
  regular_iff.2 ⟨List.nodup_nil, fun _ _ h => by cases h⟩

/-- **Setting a field to something that fits keeps an item regular.** -/
theorem Regular.set (h : item.Regular) (hv : v.Fits name) : Regular (item.set name v) := by
  by_cases hid : name = idField ∧ item.hasId
  · rw [Record.set, if_pos hid]
    exact h
  · rw [regular_iff] at h ⊢
    refine ⟨Record.nodup_set h.1 name v, fun other w hw => ?_⟩
    rw [Record.get?_set _ _ _ hid] at hw
    split at hw
    · rename_i ho
      cases hw
      rwa [ho]
    · exact h.2 other w hw

theorem Regular.insertNew (h : item.Regular) (hv : v.Fits name) :
    Regular (item.insertNew name v) := by
  rw [regular_iff] at h ⊢
  refine ⟨Record.nodup_insertNew h.1 name v, fun other w hw => ?_⟩
  rw [Record.get?_insertNew, Option.or_eq_some_iff] at hw
  rcases hw with hw | ⟨-, hw⟩
  · exact h.2 other w hw
  · split at hw
    · rename_i ho
      cases hw
      rwa [ho]
    · cases hw

theorem Regular.assign? {r : Item} (h : item.Regular) (hv : v.Regular)
    (hr : item.assign? name v = some r) : r.Regular := by
  rw [regular_iff] at h ⊢
  refine ⟨by rw [Record.names_of_assign? hr]; exact h.1, fun other w hw => ?_⟩
  rw [Record.get?_of_assign? hr] at hw
  split at hw
  · rename_i ho
    cases hw
    exact hv.fits (ho ▸ Record.ne_idField_of_assign? hr)
  · exact h.2 other w hw

theorem Regular.getD_assign? (h : item.Regular) (hv : v.Regular) :
    Regular ((item.assign? name v).getD item) := by
  cases hr : item.assign? name v with
  | none => exact h
  | some r => exact h.assign? hv hr

theorem regular_ofId (h : v.isScalar = true) : Regular (Record.ofId v) := by
  have := regular_empty.set (Value.fits_of_isScalar h idField)
  exact this

theorem regular_ofValue (h : v.IsElement) : (Item.ofValue v).Regular := by
  cases v with
  | record item => exact h.2
  | list vs => exact absurd rfl h.1
  | _ => exact regular_ofId rfl

/-! ## Changes inside an item -/

theorem regular_of_child? {item inner : Item} {k : Nat} (h : item.Regular)
    (hc : item.child? name k = some inner) : inner.Regular := everywhere_child? h hc

theorem Regular.withElements {vs : List Value} (h : item.Regular)
    (hv : ∀ v ∈ vs, v.IsElement) : (item.withElements name vs).Regular :=
  h.getD_assign? (Value.regular_list_iff.2 hv)

theorem Regular.isElement {vs : List Value} (h : item.Regular)
    (hv : item.elements? name = some vs) : ∀ v ∈ vs, v.IsElement :=
  Value.regular_list_iff.1 (h.get? (get?_of_elements? hv)).1

/-- **A change of an item inside an item keeps that one regular.** -/
theorem Regular.changeWithin {f : Item → Item} (hf : ∀ inner, Regular inner → (f inner).Regular)
    (p : Path) {item : Item} (h : item.Regular) : (item.changeWithin f p).Regular := by
  induction p using path_induction generalizing item with
  | nil => exact hf item h
  | stray p _ hc => rw [hc]; exact h
  | step name k p ih =>
    cases hc : item.child? name k with
    | none => rw [changeWithin_of_child?_none hc]; exact h
    | some inner =>
      obtain ⟨vs, hv, hk⟩ := child?_eq_some.1 hc
      rw [changeWithin_cons_cons hv hk]
      refine h.withElements fun v hm => ?_
      rcases List.mem_or_eq_of_mem_set hm with hm | rfl
      · exact h.isElement hv v hm
      · exact Value.isElement_record.2 (ih (regular_of_child? h hc))

theorem Regular.removeElement (h : item.Regular) (k : Nat) :
    (Tree.removeElement name k item).Regular := by
  cases hv : item.elements? name with
  | none =>
    rw [Tree.removeElement, hv]
    exact h
  | some vs =>
    rw [removeElement_eq hv]
    exact h.withElements fun v hm => h.isElement hv v (List.mem_of_mem_eraseIdx hm)

/-! ## What operators make of items -/

theorem Regular.addFields : ∀ {fields : List (String × Value)} {r : Item}, r.Regular →
    (∀ f ∈ fields, f.2.Fits f.1) →
      Regular (fields.foldl (fun r f => r.insertNew f.1 f.2) r)
  | [], _, hr, _ => hr
  | f :: rest, r, hr, h => by
    rw [List.foldl_cons]
    exact addFields (hr.insertNew (h f List.mem_cons_self))
      fun g hg => h g (List.mem_cons_of_mem f hg)

theorem Regular.fits_of_mem (h : item.Regular) : ∀ f ∈ item.fields, f.2.Fits f.1 :=
  fun _ hf => h.get? (Record.lookup_of_mem (regular_iff.1 h).1 hf)

theorem Regular.project (h : item.Regular) {names : List String} (hn : names.Nodup) :
    Regular (item.project names) := by
  rw [regular_iff]
  refine ⟨?_, fun other w hw => ?_⟩
  · rw [Record.names_project]
    exact hn.sublist List.filter_sublist
  · obtain ⟨name, -, he⟩ := List.mem_filterMap.1 (Record.mem_of_lookup hw)
    obtain ⟨v, hv, he⟩ := Option.map_eq_some_iff.1 he
    cases he
    exact h.get? hv

theorem regular_copy (fields : List String) {first : Item} (h : first.Regular) :
    ∀ {r : Item}, r.Regular → Regular (fields.foldl (fun r field =>
      match first.get? field with
      | some v => r.set field v
      | none => r) r) := by
  induction fields with
  | nil => intro r hr; exact hr
  | cons field rest ih =>
    intro r hr
    rw [List.foldl_cons]
    split
    · rename_i v hv
      exact ih (hr.set (h.get? hv))
    · exact ih hr

theorem regular_ofGroup (fields : List String) {first : Item} {group : List Item}
    (h : first.Regular) (hg : ∀ item ∈ group, item.Regular) :
    (ofGroup fields first group).Regular :=
  (regular_copy fields h regular_empty).set
    ((Value.regular_list_records.2 hg).fits (by decide))

theorem Regular.bind : ∀ {bindings : List Binding} {item : Item}, item.Regular →
    (∀ b ∈ bindings, b.name ≠ idField) → (Item.bind bindings item).Regular
  | [], _, h, _ => h
  | b :: rest, item, h, hb => by
    rw [Item.bind, List.foldl_cons, ← Item.bind]
    refine Regular.bind ?_ fun c hc => hb c (List.mem_cons_of_mem b hc)
    split
    · rename_i v hv
      exact h.set ((h.get? hv).1.fits (hb b List.mem_cons_self))
    · exact h

end Item

/-! ## Merging -/

theorem Except.map_eq_ok {ε α β : Type} {x : Except ε α} {f : α → β} {b : β} :
    x.map f = .ok b ↔ ∃ a, x = .ok a ∧ f a = b := by
  cases x <;> simp [Except.map]

theorem Except.bind_eq_ok {ε α β : Type} {x : Except ε α} {f : α → Except ε β} {b : β} :
    x.bind f = .ok b ↔ ∃ a, x = .ok a ∧ f a = .ok b := by
  cases x <;> simp [Except.bind]

mutual

/-- **What two regular values are combined to is regular.** -/
theorem Value.regular_merge (field : String) : ∀ {v w u : Value}, v.Regular → w.Regular →
    Value.merge field v w = .ok u → u.Regular
  | v, .null, u, hv, _, h => by
    cases v <;> cases h <;> exact hv
  | v, .bool b, u, hv, hw, h => by
    cases v <;> cases h <;> exact hw
  | v, .int b, u, hv, hw, h => by
    cases v with
    | null => cases h; exact hw
    | int a =>
      cases h
      rw [Value.addInts]
      split <;> rfl
    | float a => cases h; rfl
    | _ => cases h
  | v, .float b, u, hv, hw, h => by
    cases v <;> cases h <;> exact hw
  | v, .string b, u, hv, hw, h => by
    cases v <;> cases h <;> exact hw
  | v, .list b, u, hv, hw, h => by
    cases v with
    | null => cases h; exact hw
    | list a =>
      cases h
      rw [Value.regular_list_iff] at hv hw ⊢
      intro x hx
      rcases List.mem_append.1 hx with hx | hx
      · exact hv x hx
      · exact hw x hx
    | _ => cases h
  | v, .record ⟨b⟩, u, hv, hw, h => by
    cases v with
    | null => cases h; exact hw
    | record a =>
      rw [Value.merge] at h
      obtain ⟨c, hm, rfl⟩ := Except.map_eq_ok.1 h
      have hb : Item.Regular ⟨b⟩ := hw
      exact Item.regular_mergeFields hv hb.fits_of_mem hm
    | _ => cases h
termination_by structural _ w => w

theorem Item.regular_mergeFields : ∀ {left item : Item} {fields : List (String × Value)},
    left.Regular → (∀ f ∈ fields, f.2.Fits f.1) → Item.mergeFields left fields = .ok item →
      item.Regular
  | left, item, [], hl, _, h => by cases h; exact hl
  | left, item, (name, v) :: rest, hl, hf, h => by
    have hrest : ∀ f ∈ rest, f.2.Fits f.1 := fun f h => hf f (List.mem_cons_of_mem _ h)
    have hv := hf (name, v) List.mem_cons_self
    rw [Item.mergeFields] at h
    split at h
    · exact Item.regular_mergeFields hl hrest h
    · rename_i hid
      cases hg : left.get? name with
      | none =>
        rw [hg] at h
        exact Item.regular_mergeFields (hl.set hv) hrest h
      | some existing =>
        simp only [hg] at h
        cases hm : Value.merge name existing v with
        | error e => rw [hm] at h; cases h
        | ok combined =>
          rw [hm] at h
          refine Item.regular_mergeFields (hl.set
            ((Value.regular_merge name (hl.get? hg).1 hv.1 hm).fits ?_)) hrest h
          -- a name that is taken and may be set is not the identifier's
          rintro rfl
          refine hid ⟨rfl, ?_⟩
          rw [Record.hasId, Record.id?, hg]
          rfl
termination_by structural _ _ fields => fields

end

theorem Item.regular_merge {left right item : Item} (hl : left.Regular) (hr : right.Regular)
    (h : Item.merge left right = .ok item) : item.Regular :=
  Item.regular_mergeFields hl hr.fits_of_mem h

end GraphQuery
