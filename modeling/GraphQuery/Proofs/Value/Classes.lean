import GraphQuery.Proofs.Value.Identity
/-!
# Classes of equal items

Equality looks at a part of a value only: at the identifier of a record that has one, and at
everything else otherwise (`Value.essence`).  Two values are equal just when these parts are the
same (`Value.same_iff`), so equality of items is an equivalence.
-/

namespace GraphQuery

mutual

def Value.essence : Value → Value
  | .list vs => .list (essences vs)
  | .record ⟨fields⟩ =>
    .record ⟨(essentialId? fields).elim (essenceOfFields fields) fun id => [(idField, id)]⟩
  | v => v
termination_by structural v => v

def essences : List Value → List Value
  | [] => []
  | v :: rest => v.essence :: essences rest
termination_by structural vs => vs

def essenceOfFields : List (String × Value) → List (String × Value)
  | [] => []
  | (name, v) :: rest => (name, v.essence) :: essenceOfFields rest
termination_by structural fields => fields

def essentialId? : List (String × Value) → Option Value
  | [] => none
  | (name, v) :: rest => if name = idField then some v.essence else essentialId? rest
termination_by structural fields => fields

end

theorem essentialId?_eq : ∀ fields : List (String × Value),
    essentialId? fields = (Record.lookup idField fields).map Value.essence
  | [] => rfl
  | (name, v) :: rest => by
    rw [essentialId?, Record.lookup, essentialId?_eq rest]
    split <;> rfl

theorem lookup_essenceOfFields : ∀ fields : List (String × Value),
    Record.lookup idField (essenceOfFields fields) =
      (Record.lookup idField fields).map Value.essence
  | [] => rfl
  | (name, v) :: rest => by
    rw [essenceOfFields, Record.lookup, Record.lookup, lookup_essenceOfFields rest]
    split <;> rfl

theorem essence_record (fields : List (String × Value)) :
    (Value.record ⟨fields⟩).essence =
      .record ⟨((Record.lookup idField fields).map Value.essence).elim (essenceOfFields fields)
        fun id => [(idField, id)]⟩ := by
  rw [Value.essence, essentialId?_eq]

theorem lookup_essence (fields : List (String × Value)) :
    Record.lookup idField (((Record.lookup idField fields).map Value.essence).elim
      (essenceOfFields fields) fun id => [(idField, id)]) =
        (Record.lookup idField fields).map Value.essence := by
  cases h : Record.lookup idField fields with
  | none => exact (lookup_essenceOfFields fields).trans (by rw [h])
  | some id => rfl

theorem id?_of_essence_eq {as bs : List (String × Value)}
    (h : (Value.record ⟨as⟩).essence = (Value.record ⟨bs⟩).essence) :
    (Record.lookup idField as).map Value.essence =
      (Record.lookup idField bs).map Value.essence := by
  rw [essence_record, essence_record] at h
  injection h with h
  injection h with h
  rw [← lookup_essence as, h, lookup_essence bs]

theorem same_record_iff {as bs : List (String × Value)}
    (hf : sameFields as bs = true ↔ essenceOfFields as = essenceOfFields bs)
    (hi : ∀ x, Record.lookup idField as = some x →
      ∀ y : Value, x.same y = true ↔ x.essence = y.essence) :
    (Value.record ⟨as⟩).same (.record ⟨bs⟩) = true ↔
      (Value.record ⟨as⟩).essence = (Value.record ⟨bs⟩).essence := by
  have hs := sameItem_eq ⟨as⟩ ⟨bs⟩
  rw [Item.same, Record.id?, Record.id?, Record.get?, Record.get?] at hs
  have hid : sameFields as bs = true → (Record.lookup idField as).map Value.essence =
      (Record.lookup idField bs).map Value.essence := fun h => by
    rw [← lookup_essenceOfFields, hf.1 h, lookup_essenceOfFields]
  have hid' := @id?_of_essence_eq as bs
  rw [hs, essence_record, essence_record] at *
  cases ha : Record.lookup idField as with
  | none =>
    cases hb : Record.lookup idField bs with
    | none => simpa using hf
    | some y =>
      -- an identifier on one side only: neither the fields nor what is left of them agree
      rw [ha, hb] at hid hid'
      exact ⟨fun h => absurd (hid h) (by simp), fun h => absurd (hid' h) (by simp)⟩
  | some x =>
    cases hb : Record.lookup idField bs with
    | none =>
      rw [ha, hb] at hid hid'
      exact ⟨fun h => absurd (hid h) (by simp), fun h => absurd (hid' h) (by simp)⟩
    | some y => simpa using hi x ha y

mutual

/-- **Values are equal when what equality looks at in them is the same.** -/
theorem Value.same_iff : ∀ a b : Value, a.same b = true ↔ a.essence = b.essence
  | .null, b => by cases b <;> simp [Value.same, Value.essence]
  | .bool _, b => by cases b <;> simp [Value.same, Value.essence]
  | .int _, b => by cases b <;> simp [Value.same, Value.essence]
  | .float _, b => by cases b <;> simp [Value.same, Value.essence]
  | .string _, b => by cases b <;> simp [Value.same, Value.essence]
  | .list as, b => by
    cases b with
    | list bs => simpa [Value.same, Value.essence] using sameValues_iff as bs
    | _ => simp [Value.same, Value.essence]
  | .record ⟨as⟩, b => by
    cases b with
    | record b =>
      exact same_record_iff (sameFields_iff as b.fields) fun x hx =>
        same_iff_of_mem as (idField, x) (Record.mem_of_lookup hx)
    | _ => simp [Value.same, Value.essence]

theorem sameValues_iff : ∀ as bs : List Value,
    sameValues as bs = true ↔ essences as = essences bs
  | [], bs => by cases bs <;> simp [sameValues, essences]
  | a :: as, bs => by
    cases bs with
    | nil => simp [sameValues, essences]
    | cons b bs => simp [sameValues, essences, Value.same_iff a b, sameValues_iff as bs]

theorem sameFields_iff : ∀ as bs : List (String × Value),
    sameFields as bs = true ↔ essenceOfFields as = essenceOfFields bs
  | [], bs => by cases bs <;> simp [sameFields, essenceOfFields]
  | (m, a) :: as, bs => by
    cases bs with
    | nil => simp [sameFields, essenceOfFields]
    | cons b bs =>
      simp [sameFields, essenceOfFields, Value.same_iff a b.2, sameFields_iff as bs]

theorem same_iff_of_mem : ∀ fields : List (String × Value), ∀ f ∈ fields, ∀ b : Value,
    f.2.same b = true ↔ f.2.essence = b.essence
  | [], _, h => by cases h
  | (n, v) :: rest, f, h => by
    rcases List.mem_cons.1 h with rfl | h
    · exact Value.same_iff v
    · exact same_iff_of_mem rest f h

end

theorem Item.beq_iff {a b : Item} :
    (a == b) = true ↔ (Value.record a).essence = (Value.record b).essence := Value.same_iff _ _

/-- **Equality of items is an equivalence.** -/
instance : EquivBEq Item where
  rfl := Item.beq_self _
  symm h := Item.beq_iff.2 (Item.beq_iff.1 h).symm
  trans h h' := Item.beq_iff.2 ((Item.beq_iff.1 h).trans (Item.beq_iff.1 h'))

end GraphQuery
