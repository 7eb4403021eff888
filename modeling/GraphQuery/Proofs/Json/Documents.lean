import GraphQuery.Proofs.Json.Values
/-!
# Documents and values

A document in which no member is out of place and no float has to become null is *canonical*
(`Json.Canonical`).  These are the documents that come back from the value they stand for
(`Json.toJson_ofJson_iff`); a value comes back from its document with its fields in order, unless a
field or a float is lost on the way.  Neither holds of anything else (`Json.exchange_iff`).
-/

namespace GraphQuery

namespace Json

/-- **Arrays and objects are built from documents**, and every other document is a scalar. -/
theorem induction {motive : Json → Prop} (null : motive .null) (bool : ∀ b, motive (.bool b))
    (int : ∀ i, motive (.int i)) (float : ∀ d, motive (.float d))
    (string : ∀ s, motive (.string s))
    (array : ∀ js, (∀ j ∈ js, motive j) → motive (.array js))
    (object : ∀ ms, (∀ m ∈ ms, motive m.2) → motive (.object ms)) : ∀ j, motive j :=
  @Json.rec motive (fun js => ∀ j ∈ js, motive j) (fun ms => ∀ m ∈ ms, motive m.2)
    (fun m => motive m.2) null bool int float string array object
    (fun _ h => absurd h List.not_mem_nil)
    (fun _ _ hj hjs => List.forall_mem_cons.2 ⟨hj, hjs⟩)
    (fun _ h => absurd h List.not_mem_nil)
    (fun _ _ hm hms => List.forall_mem_cons.2 ⟨hm, hms⟩)
    (fun _ _ h => h)

/--
A document whose floats are finite and whose objects have their members in the byte order of their
names, each name once.
-/
inductive Canonical : Json → Prop where
  | null : Canonical .null
  | bool (b : Bool) : Canonical (.bool b)
  | int (i : Int64) : Canonical (.int i)
  | float {d : Double} : d.isFinite = true → Canonical (.float d)
  | string (s : String) : Canonical (.string s)
  | array {js : List Json} : (∀ j ∈ js, Canonical j) → Canonical (.array js)
  | object {ms : List (String × Json)} :
    (ms.map Prod.fst).Pairwise (fun m n => Text.bytes m < Text.bytes n) →
      (∀ m ∈ ms, Canonical m.2) → Canonical (.object ms)

variable {js : List Json} {ms : List (String × Json)}

theorem canonical_float {d : Double} : (float d).Canonical ↔ d.isFinite = true :=
  ⟨fun | .float hd => hd, .float⟩

theorem canonical_array : (array js).Canonical ↔ ∀ j ∈ js, j.Canonical :=
  ⟨fun | .array hjs => hjs, .array⟩

theorem ascending_iff_bytes :
    Ascending ms ↔ (ms.map Prod.fst).Pairwise fun m n => Text.bytes m < Text.bytes n := by
  simp only [ascending_iff, Text.bytes_lt_iff]

theorem canonical_object : (object ms).Canonical ↔ Ascending ms ∧ ∀ m ∈ ms, m.2.Canonical := by
  rw [ascending_iff_bytes]
  exact ⟨fun | .object hn hms => ⟨hn, hms⟩, fun h => .object h.1 h.2⟩

theorem nodup_of_ascending (h : Ascending ms) : (ms.map Prod.fst).Nodup :=
  (ascending_iff.1 h).imp ne_of_lt

theorem toJson_ofJson_object (h : Ascending ms) : (Value.ofJson (object ms)).toJson =
    object (ms.map fun m => (m.1, (Value.ofJson m.2).toJson)) := by
  have hnames : ((ms.map fun m => (m.1, Value.ofJson m.2)).map Prod.fst).Nodup := by
    rw [List.map_map]
    exact nodup_of_ascending h
  have hascending : Ascending (ms.map fun m => (m.1, (Value.ofJson m.2).toJson)) := by
    rw [ascending_iff, List.map_map]
    exact ascending_iff.1 h
  rw [Value.ofJson, fieldsOfJson_eq, Record.ofFields_of_nodup hnames, Value.toJson_record,
    List.map_map]
  exact congrArg object (sortedMembers_of_ascending hascending)

theorem ascending_of_toJson {v : Value} (h : v.toJson = object ms) : Ascending ms := by
  cases v with
  | record item =>
    obtain ⟨fields⟩ := item
    rw [Value.toJson_record, object.injEq] at h
    exact h ▸ ascending_sortedMembers _
  | float d =>
    rw [Value.toJson] at h
    split at h <;> cases h
  | _ => cases h

/-- **The documents that come back from the value they stand for are the canonical ones.** -/
theorem toJson_ofJson_iff (j : Json) : (Value.ofJson j).toJson = j ↔ j.Canonical := by
  induction j using Json.induction with
  | null => exact ⟨fun _ => .null, fun _ => rfl⟩
  | bool b => exact ⟨fun _ => .bool b, fun _ => rfl⟩
  | int i => exact ⟨fun _ => .int i, fun _ => rfl⟩
  | string s => exact ⟨fun _ => .string s, fun _ => rfl⟩
  | float d =>
    rw [Value.ofJson, Value.toJson, canonical_float]
    split
    · rename_i hd
      exact ⟨fun _ => hd, fun _ => rfl⟩
    · rename_i hd
      refine ⟨fun h => ?_, fun h => absurd h hd⟩
      cases h
  | array js ih =>
    have hback : (Value.ofJson (array js)).toJson =
        array (js.map fun j => (Value.ofJson j).toJson) := by
      rw [Value.ofJson, Value.toJson, valuesToJson_eq, valuesOfJson_eq, List.map_map]
      rfl
    rw [hback, canonical_array, array.injEq]
    constructor
    · intro h j hj
      exact (ih j hj).1 (List.map_inj_left.1 (h.trans (List.map_id js).symm) j hj)
    · intro h
      exact (List.map_congr_left fun j hj => (ih j hj).2 (h j hj)).trans (List.map_id js)
  | object ms ih =>
    rw [canonical_object]
    constructor
    · intro h
      have hms := ascending_of_toJson h
      rw [toJson_ofJson_object hms, object.injEq] at h
      have hkept := List.map_inj_left.1 (h.trans (List.map_id ms).symm)
      exact ⟨hms, fun m hm => (ih m hm).1 (congrArg Prod.snd (hkept m hm))⟩
    · rintro ⟨hms, hcanonical⟩
      have hkept : ∀ m ∈ ms, (m.1, (Value.ofJson m.2).toJson) = id m := fun m hm =>
        Prod.ext rfl ((ih m hm).2 (hcanonical m hm))
      rw [toJson_ofJson_object hms, List.map_congr_left hkept, List.map_id]

/--
**Documents and values are exchanged without loss.**  A document comes back from the value it stands
for exactly if it is canonical: its floats are finite, and the members of its objects are in the byte
order of their names.  A value comes back from its document with the fields of every record in that
order, and otherwise as it was, exactly if its floats are finite and no record in it has two fields of
one name.
-/
theorem exchange_iff :
    (∀ j : Json, (Value.ofJson j).toJson = j ↔ j.Canonical) ∧
      ∀ v : Value, Value.ofJson v.toJson = v.arranged ↔
        v.everyFloat Double.isFinite = true ∧
          v.everywhere Item.hasDistinctNames (fun _ => true) = true :=
  ⟨toJson_ofJson_iff, Value.ofJson_toJson_iff⟩

/-- Fields change places; the integer 1 and the float 1 stay what they are. -/
example :
    let v : Value := .record ⟨[("b", .float (Double.ofInt 1)), (":id", .int 1), ("a", .null)]⟩
    Value.ofJson v.toJson =
      .record ⟨[(":id", .int 1), ("a", .null), ("b", .float (Double.ofInt 1))]⟩ := rfl

end Json

end GraphQuery
