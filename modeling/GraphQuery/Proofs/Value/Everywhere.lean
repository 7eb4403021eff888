import GraphQuery.Proofs.Tree.Access
import GraphQuery.Tree.Basic
/-!
# What holds at every depth

A test of records and a test of lists, asked of every record and every list inside a value
(`Value.everywhere`).  The items that queries work on are *sound*: their field names are distinct
and their identifiers are scalars.  They are *regular* when no list stands directly in a list
either.  Reading inside an item finds nothing else, and setting a field keeps items regular.
-/

namespace GraphQuery

def Value.isScalar (v : Value) : Bool := v.kind ≠ .list && v.kind ≠ .record

mutual

/-- Whether a test holds of every record, and another one of every list, inside a value. -/
def Value.everywhere (r : Item → Bool) (l : List Value → Bool) : Value → Bool
  | .list vs => l vs && elementsEverywhere r l vs
  | .record ⟨fields⟩ => r ⟨fields⟩ && fieldsEverywhere r l fields
  | _ => true
termination_by structural v => v

def elementsEverywhere (r : Item → Bool) (l : List Value → Bool) : List Value → Bool
  | [] => true
  | v :: rest => v.everywhere r l && elementsEverywhere r l rest
termination_by structural vs => vs

def fieldsEverywhere (r : Item → Bool) (l : List Value → Bool) : List (String × Value) → Bool
  | [] => true
  | (_, v) :: rest => v.everywhere r l && fieldsEverywhere r l rest
termination_by structural fields => fields

end

section

variable {r : Item → Bool} {l : List Value → Bool}

theorem elementsEverywhere_iff : ∀ {vs : List Value},
    elementsEverywhere r l vs = true ↔ ∀ v ∈ vs, v.everywhere r l = true
  | [] => by simp [elementsEverywhere]
  | v :: rest => by
    rw [elementsEverywhere, Bool.and_eq_true, elementsEverywhere_iff, List.forall_mem_cons]

theorem fieldsEverywhere_iff : ∀ {fields : List (String × Value)},
    fieldsEverywhere r l fields = true ↔ ∀ f ∈ fields, f.2.everywhere r l = true
  | [] => by simp [fieldsEverywhere]
  | (n, v) :: rest => by
    rw [fieldsEverywhere, Bool.and_eq_true, fieldsEverywhere_iff, List.forall_mem_cons]

namespace Value

theorem everywhere_list {vs : List Value} :
    (list vs).everywhere r l = true ↔ l vs = true ∧ ∀ v ∈ vs, v.everywhere r l = true := by
  rw [everywhere, Bool.and_eq_true, elementsEverywhere_iff]

theorem everywhere_record {item : Item} :
    (record item).everywhere r l = true ↔
      r item = true ∧ ∀ f ∈ item.fields, f.2.everywhere r l = true := by
  obtain ⟨fields⟩ := item
  rw [everywhere, Bool.and_eq_true, fieldsEverywhere_iff]

theorem everywhere_of_isScalar {v : Value} (h : v.isScalar = true) : v.everywhere r l = true := by
  cases v <;> first | rfl | simp [isScalar, kind] at h

end Value

mutual

theorem Value.everywhere_mono {r' : Item → Bool} {l' : List Value → Bool}
    (hr : ∀ item, r item = true → r' item = true) (hl : ∀ vs, l vs = true → l' vs = true) :
    ∀ v : Value, v.everywhere r l = true → v.everywhere r' l' = true
  | .null, _ | .bool _, _ | .int _, _ | .float _, _ | .string _, _ => rfl
  | .list vs, h => by
    simp only [Value.everywhere, Bool.and_eq_true] at h ⊢
    exact ⟨hl vs h.1, elementsEverywhere_mono hr hl vs h.2⟩
  | .record ⟨fields⟩, h => by
    simp only [Value.everywhere, Bool.and_eq_true] at h ⊢
    exact ⟨hr _ h.1, fieldsEverywhere_mono hr hl fields h.2⟩

theorem elementsEverywhere_mono {r' : Item → Bool} {l' : List Value → Bool}
    (hr : ∀ item, r item = true → r' item = true) (hl : ∀ vs, l vs = true → l' vs = true) :
    ∀ vs : List Value, elementsEverywhere r l vs = true → elementsEverywhere r' l' vs = true
  | [], _ => rfl
  | v :: rest, h => by
    simp only [elementsEverywhere, Bool.and_eq_true] at h ⊢
    exact ⟨Value.everywhere_mono hr hl v h.1, elementsEverywhere_mono hr hl rest h.2⟩

theorem fieldsEverywhere_mono {r' : Item → Bool} {l' : List Value → Bool}
    (hr : ∀ item, r item = true → r' item = true) (hl : ∀ vs, l vs = true → l' vs = true) :
    ∀ fields : List (String × Value), fieldsEverywhere r l fields = true →
      fieldsEverywhere r' l' fields = true
  | [], _ => rfl
  | (n, v) :: rest, h => by
    simp only [fieldsEverywhere, Bool.and_eq_true] at h ⊢
    exact ⟨Value.everywhere_mono hr hl v h.1, fieldsEverywhere_mono hr hl rest h.2⟩

end

/-! ## Floats -/

mutual

def Value.everyFloat (p : Double → Bool) : Value → Bool
  | .float d => p d
  | .list vs => elementsEveryFloat p vs
  | .record ⟨fields⟩ => fieldsEveryFloat p fields
  | _ => true
termination_by structural v => v

def elementsEveryFloat (p : Double → Bool) : List Value → Bool
  | [] => true
  | v :: rest => v.everyFloat p && elementsEveryFloat p rest
termination_by structural vs => vs

def fieldsEveryFloat (p : Double → Bool) : List (String × Value) → Bool
  | [] => true
  | (_, v) :: rest => v.everyFloat p && fieldsEveryFloat p rest
termination_by structural fields => fields

end

section

variable {p : Double → Bool}

theorem elementsEveryFloat_iff : ∀ {vs : List Value},
    elementsEveryFloat p vs = true ↔ ∀ v ∈ vs, v.everyFloat p = true
  | [] => by simp [elementsEveryFloat]
  | v :: rest => by
    rw [elementsEveryFloat, Bool.and_eq_true, elementsEveryFloat_iff, List.forall_mem_cons]

theorem fieldsEveryFloat_iff : ∀ {fields : List (String × Value)},
    fieldsEveryFloat p fields = true ↔ ∀ f ∈ fields, f.2.everyFloat p = true
  | [] => by simp [fieldsEveryFloat]
  | (n, v) :: rest => by
    rw [fieldsEveryFloat, Bool.and_eq_true, fieldsEveryFloat_iff, List.forall_mem_cons]

namespace Value

theorem everyFloat_list {vs : List Value} :
    (list vs).everyFloat p = true ↔ ∀ v ∈ vs, v.everyFloat p = true := elementsEveryFloat_iff

theorem everyFloat_record {item : Item} :
    (record item).everyFloat p = true ↔ ∀ f ∈ item.fields, f.2.everyFloat p = true :=
  fieldsEveryFloat_iff

end Value

end

def Value.isFloatless (v : Value) : Bool := v.everyFloat fun _ => false

/-! ## Items and trees -/

def Item.everywhere (r : Item → Bool) (l : List Value → Bool) (item : Item) : Bool :=
  (Value.record item).everywhere r l

def Tree.Everywhere (r : Item → Bool) (l : List Value → Bool) (t : Tree) : Prop :=
  ∀ s ∈ t.seqs, ∀ item ∈ s.toList, item.everywhere r l = true

def Item.hasDistinctNames (item : Item) : Bool := decide item.names.Nodup

/-- Whether field names are distinct and the identifier is a scalar. -/
def Item.isSound (item : Item) : Bool :=
  decide item.names.Nodup && item.id?.all Value.isScalar

def Tree.Sound (t : Tree) : Prop := t.Everywhere Item.isSound fun _ => true

namespace Item

theorem everywhere_iff {item : Item} : item.everywhere r l = true ↔
    r item = true ∧ ∀ f ∈ item.fields, f.2.everywhere r l = true := Value.everywhere_record

theorem everywhere_get? {item : Item} (h : item.everywhere r l = true) {name : String} {v : Value}
    (hv : item.get? name = some v) : v.everywhere r l = true :=
  (everywhere_iff.1 h).2 (name, v) (Record.mem_of_lookup hv)

theorem everywhere_child? {item inner : Item} (h : item.everywhere r l = true) {name : String}
    {k : Nat} (hc : item.child? name k = some inner) : inner.everywhere r l = true := by
  obtain ⟨vs, hv, hk⟩ := child?_eq_some.1 hc
  have hw := everywhere_get? h (get?_of_elements? hv)
  exact (Value.everywhere_list.1 hw).2 _ (List.mem_of_getElem? hk)

theorem everywhere_within? {p : Path} {item inner : Item} (h : item.everywhere r l = true)
    (hi : within? p item = some inner) : inner.everywhere r l = true := by
  induction p using path_induction generalizing item with
  | nil => cases hi; exact h
  | step name k p ih =>
    rw [within?_cons_cons] at hi
    obtain ⟨c, hc, hi⟩ := Option.bind_eq_some_iff.1 hi
    exact ih (everywhere_child? h hc) hi
  | stray p hp => rw [hp] at hi; cases hi

end Item

namespace Tree

theorem mem_seqsOfEntries {s : Seq Item} : ∀ {entries : List (Key × Tree)},
    s ∈ seqsOfEntries entries ↔ ∃ e ∈ entries, s ∈ e.2.seqs
  | [] => by simp [seqsOfEntries]
  | e :: rest => by
    rw [seqsOfEntries, List.mem_append, mem_seqsOfEntries]
    simp

theorem everywhere_seq {s : Seq Item} :
    (seq s).Everywhere r l ↔ ∀ item ∈ s.toList, item.everywhere r l = true := by
  simp [Everywhere, seqs]

theorem everywhere_map {entries : List (Key × Tree)} :
    (map entries).Everywhere r l ↔ ∀ e ∈ entries, e.2.Everywhere r l := by
  simp only [Everywhere, seqs, mem_seqsOfEntries]
  constructor
  · intro h e he s hs
    exact h s ⟨e, he, hs⟩
  · rintro h s ⟨e, he, hs⟩
    exact h e he s hs

theorem Everywhere.mono {t : Tree} {r' : Item → Bool} {l' : List Value → Bool}
    (h : t.Everywhere r l) (hr : ∀ item, r item = true → r' item = true)
    (hl : ∀ vs, l vs = true → l' vs = true) : t.Everywhere r' l' :=
  fun s hs item hi => Value.everywhere_mono hr hl (.record item) (h s hs item hi)

end Tree

end

end GraphQuery
