import GraphQuery.Json.Convert
import GraphQuery.Proofs.Json.Members
import GraphQuery.Proofs.Json.Reading
import GraphQuery.Proofs.Value.Everywhere
/-!
# Values that JSON keeps

A value without floats whose records have distinct names is read back from its JSON text as it was,
with the fields of every record in the order of their names, provided it does not nest too deep
(`Value.read_lossless`).  Of any other item whose text can be read, each field is what is read back of
its last value (`Item.get?_of_parse?`), and nothing but an integer is read back as one
(`Value.reread?_eq_int_iff`).
-/

namespace GraphQuery

/-! ## Lists of values and fields -/

theorem valuesToJson_eq (vs : List Value) : valuesToJson vs = vs.map Value.toJson := by
  induction vs with
  | nil => rfl
  | cons v rest ih => rw [valuesToJson, ih, List.map_cons]

theorem fieldsToJson_eq (fields : List (String × Value)) :
    fieldsToJson fields = fields.map fun f => (f.1, f.2.toJson) := by
  induction fields with
  | nil => rfl
  | cons f rest ih => rw [fieldsToJson, ih, List.map_cons]

theorem valuesOfJson_eq (js : List Json) : valuesOfJson js = js.map Value.ofJson := by
  induction js with
  | nil => rfl
  | cons j rest ih => rw [valuesOfJson, ih, List.map_cons]

theorem fieldsOfJson_eq (ms : List (String × Json)) :
    fieldsOfJson ms = ms.map fun m => (m.1, Value.ofJson m.2) := by
  induction ms with
  | nil => rfl
  | cons m rest ih => rw [fieldsOfJson, ih, List.map_cons]

theorem Value.toJson_record (fields : List (String × Value)) : (Value.record ⟨fields⟩).toJson =
    .object (Json.sortedMembers (fields.map fun f => (f.1, f.2.toJson))) := by
  rw [Value.toJson, fieldsToJson_eq, Json.ofMembers_eq]

theorem mem_members {fields : List (String × Value)} {m : String × Json}
    (h : m ∈ Json.sortedMembers (fields.map fun f => (f.1, f.2.toJson))) :
    ∃ f ∈ fields, (f.1, f.2.toJson) = m :=
  List.mem_map.1 (Json.mem_of_mem_sortedMembers h)

/-! ## The order of fields -/

mutual

/-- A value with the fields of every record in the byte order of their names. -/
def Value.arranged : Value → Value
  | .list vs => .list (valuesArranged vs)
  | .record ⟨fields⟩ => .record ⟨(fieldsArranged fields).insertionSort NameOrder⟩
  | v => v
termination_by structural v => v

def valuesArranged : List Value → List Value
  | [] => []
  | v :: rest => v.arranged :: valuesArranged rest
termination_by structural vs => vs

def fieldsArranged : List (String × Value) → List (String × Value)
  | [] => []
  | (name, v) :: rest => (name, v.arranged) :: fieldsArranged rest
termination_by structural fields => fields

end

theorem valuesArranged_eq (vs : List Value) : valuesArranged vs = vs.map Value.arranged := by
  induction vs with
  | nil => rfl
  | cons v rest ih => rw [valuesArranged, ih, List.map_cons]

theorem fieldsArranged_eq (fields : List (String × Value)) :
    fieldsArranged fields = fields.map fun f => (f.1, f.2.arranged) := by
  induction fields with
  | nil => rfl
  | cons f rest ih => rw [fieldsArranged, ih, List.map_cons]

def Item.arranged (item : Item) : Item := ⟨(fieldsArranged item.fields).insertionSort NameOrder⟩

/-! ## What JSON keeps -/

def Item.isLossless (item : Item) : Bool :=
  decide item.names.Nodup && item.fields.all (·.2.kind ≠ .float)

/-- Whether a value has no floats and no repeated field names, at any depth. -/
def Value.isLossless (v : Value) : Bool :=
  v.kind ≠ .float && v.everywhere Item.isLossless fun vs => vs.all (·.kind ≠ .float)

mutual

def Value.depth : Value → Nat
  | .list vs => valuesDepth vs + 1
  | .record ⟨fields⟩ => fieldsDepth fields + 1
  | _ => 0
termination_by structural v => v

def valuesDepth : List Value → Nat
  | [] => 0
  | v :: rest => max v.depth (valuesDepth rest)
termination_by structural vs => vs

def fieldsDepth : List (String × Value) → Nat
  | [] => 0
  | (_, v) :: rest => max v.depth (fieldsDepth rest)
termination_by structural fields => fields

end

namespace Value

theorem isLossless_list {vs : List Value} (h : (list vs).isLossless = true) :
    ∀ v ∈ vs, v.isLossless = true := by
  simp only [isLossless, Bool.and_eq_true, everywhere_list, List.all_eq_true] at h ⊢
  exact fun v hv => ⟨h.2.1 v hv, h.2.2 v hv⟩

theorem isLossless_record {item : Item} : (record item).isLossless = true ↔
    item.names.Nodup ∧ ∀ f ∈ item.fields, f.2.isLossless = true := by
  simp only [isLossless, Item.isLossless, Bool.and_eq_true, everywhere_record, List.all_eq_true,
    decide_eq_true_eq]
  constructor
  · rintro ⟨-, ⟨hn, hk⟩, he⟩
    exact ⟨hn, fun f hf => ⟨hk f hf, he f hf⟩⟩
  · rintro ⟨hn, hf⟩
    exact ⟨by simp [kind], ⟨hn, fun f h => (hf f h).1⟩, fun f h => (hf f h).2⟩

theorem valuesDepth_le_iff {vs : List Value} {n : Nat} :
    valuesDepth vs ≤ n ↔ ∀ v ∈ vs, v.depth ≤ n := by
  induction vs with
  | nil => simp [valuesDepth]
  | cons v rest ih => rw [valuesDepth, Nat.max_le, ih, List.forall_mem_cons]

theorem fieldsDepth_le_iff {fields : List (String × Value)} {n : Nat} :
    fieldsDepth fields ≤ n ↔ ∀ f ∈ fields, f.2.depth ≤ n := by
  induction fields with
  | nil => simp [fieldsDepth]
  | cons f rest ih => rw [fieldsDepth, Nat.max_le, ih, List.forall_mem_cons]

/-! ## From a value to its text and back -/

theorem sorted_toJson (v : Value) : v.toJson.sorted = v.toJson := by
  induction v using Value.induction with
  | float d =>
    rw [toJson]
    split <;> rfl
  | list vs ih =>
    rw [toJson, valuesToJson_eq, Json.sorted, Json.elementsSorted_eq, List.map_map]
    exact congrArg _ (List.map_congr_left ih)
  | record fields ih =>
    have hmembers : ∀ m ∈ Json.sortedMembers (fields.map fun f => (f.1, f.2.toJson)),
        (m.1, m.2.sorted) = id m := fun m hm => by
      obtain ⟨f, hf, rfl⟩ := mem_members hm
      exact Prod.ext rfl (ih f hf)
    rw [toJson_record, Json.sorted, Json.membersSorted_eq, List.map_congr_left hmembers, List.map_id,
      Json.ofMembers_eq, Json.sortedMembers_of_ascending (Json.ascending_sortedMembers _)]
  | _ => rfl

theorem scanned?_toJson {v : Value} (h : v.isLossless = true) : v.toJson.scanned? = some v.toJson := by
  induction v using Value.induction with
  | float d => cases h
  | list vs ih =>
    have hs : ∀ j ∈ vs.map toJson, j.scanned? = some j := by
      rw [List.forall_mem_map]
      exact fun v hv => ih v hv (isLossless_list h v hv)
    rw [toJson, valuesToJson_eq, Json.scanned?, Json.elementsScanned?_eq_self hs]
    rfl
  | record fields ih =>
    have hmembers : ∀ m ∈ Json.sortedMembers (fields.map fun f => (f.1, f.2.toJson)),
        m.2.scanned? = some m.2 := fun m hm => by
      obtain ⟨f, hf, rfl⟩ := mem_members hm
      exact ih f hf ((isLossless_record.1 h).2 f hf)
    rw [toJson_record, Json.scanned?, Json.membersScanned?_eq_self hmembers]
    rfl
  | _ => rfl

theorem depth_toJson_le (v : Value) : v.toJson.depth ≤ v.depth := by
  induction v using Value.induction with
  | float d =>
    rw [toJson]
    split <;> exact Nat.le_refl 0
  | list vs ih =>
    rw [toJson, valuesToJson_eq, Json.depth, depth, Nat.succ_le_succ_iff, Json.elementsDepth_le_iff,
      List.forall_mem_map]
    exact fun v hv => (ih v hv).trans (valuesDepth_le_iff.1 (Nat.le_refl _) v hv)
  | record fields ih =>
    rw [toJson_record, Json.depth, depth, Nat.succ_le_succ_iff, Json.membersDepth_le_iff]
    intro m hm
    obtain ⟨f, hf, rfl⟩ := mem_members hm
    exact (ih f hf).trans (fieldsDepth_le_iff.1 (Nat.le_refl _) f hf)
  | _ => exact Nat.le_refl 0

theorem ofJson_toJson_record {fields : List (String × Value)} (h : (fields.map Prod.fst).Nodup) :
    ofJson (record ⟨fields⟩).toJson =
      record ⟨(fields.insertionSort NameOrder).map fun f => (f.1, ofJson f.2.toJson)⟩ := by
  have hjson : ((fields.map fun f => (f.1, f.2.toJson)).map Prod.fst).Nodup := by
    rw [List.map_map]
    exact h
  have hread : ((fields.insertionSort NameOrder).map fun f => (f.1, ofJson f.2.toJson)) =
      fieldsOfJson (Json.sortedMembers (fields.map fun f => (f.1, f.2.toJson))) := by
    rw [Json.sortedMembers_eq_insertionSort hjson, fieldsOfJson_eq,
      ← map_insertionSort_nameOrder, List.map_map]
    rfl
  rw [toJson_record, ofJson, hread, Record.ofFields_of_nodup]
  rw [← hread, List.map_map]
  exact nodup_names_insertionSort.2 h

/--
**From a value to its document and back only the order of fields is changed**, exactly if all floats
are finite and no record has two fields of one name.
-/
theorem ofJson_toJson_iff (v : Value) : ofJson v.toJson = v.arranged ↔
    v.everyFloat Double.isFinite = true ∧
      v.everywhere Item.hasDistinctNames (fun _ => true) = true := by
  induction v using Value.induction with
  | float d =>
    rw [toJson]
    split
    · rename_i hd
      exact ⟨fun _ => ⟨hd, rfl⟩, fun _ => rfl⟩
    · rename_i hd
      exact ⟨nofun, fun h => absurd h.1 hd⟩
  | list vs ih =>
    rw [toJson, valuesToJson_eq, ofJson, valuesOfJson_eq, arranged, valuesArranged_eq, List.map_map,
      list.injEq, List.map_inj_left, everyFloat_list, everywhere_list]
    constructor
    · intro h
      exact ⟨fun v hv => ((ih v hv).1 (h v hv)).1, rfl, fun v hv => ((ih v hv).1 (h v hv)).2⟩
    · rintro ⟨hf, -, hd⟩ v hv
      exact (ih v hv).2 ⟨hf v hv, hd v hv⟩
  | record fields ih =>
    rw [everyFloat_record, everywhere_record]
    by_cases hn : (fields.map Prod.fst).Nodup
    · have hmem : ∀ f, f ∈ fields.insertionSort NameOrder ↔ f ∈ fields := fun f =>
        (List.perm_insertionSort NameOrder fields).mem_iff
      rw [ofJson_toJson_record hn, arranged, fieldsArranged_eq, ← map_insertionSort_nameOrder,
        record.injEq, Record.mk.injEq, List.map_inj_left]
      constructor
      · intro h
        have hkept : ∀ f ∈ fields, ofJson f.2.toJson = f.2.arranged := fun f hf =>
          congrArg Prod.snd (h f ((hmem f).2 hf))
        exact ⟨fun f hf => ((ih f hf).1 (hkept f hf)).1, decide_eq_true hn,
          fun f hf => ((ih f hf).1 (hkept f hf)).2⟩
      · rintro ⟨hf, -, hd⟩ f hs
        have hm := (hmem f).1 hs
        exact Prod.ext rfl ((ih f hm).2 ⟨hf f hm, hd f hm⟩)
    · -- what is read of a document never has a name twice
      refine iff_of_false (fun h => hn ?_) fun h => hn (of_decide_eq_true h.2.1)
      rw [toJson_record, ofJson, arranged, record.injEq] at h
      have hnames := h ▸ Record.nodup_ofFields _
      rw [Record.names, nodup_names_insertionSort, fieldsArranged_eq, List.map_map] at hnames
      exact hnames
  | _ => exact ⟨fun _ => ⟨rfl, rfl⟩, fun _ => rfl⟩

theorem keeps_of_isLossless {v : Value} (h : v.isLossless = true) :
    v.everyFloat Double.isFinite = true ∧
      v.everywhere Item.hasDistinctNames (fun _ => true) = true := by
  induction v using Value.induction with
  | float d => cases h
  | list vs ih =>
    have hvs := isLossless_list h
    exact ⟨everyFloat_list.2 fun v hv => (ih v hv (hvs v hv)).1,
      everywhere_list.2 ⟨rfl, fun v hv => (ih v hv (hvs v hv)).2⟩⟩
  | record fields ih =>
    obtain ⟨hn, hf⟩ := isLossless_record.1 h
    exact ⟨everyFloat_record.2 fun f hm => (ih f hm (hf f hm)).1,
      everywhere_record.2 ⟨decide_eq_true hn, fun f hm => (ih f hm (hf f hm)).2⟩⟩
  | _ => exact ⟨rfl, rfl⟩

/-- **Of a value without floats and repeated names only the order of fields is changed.** -/
theorem ofJson_toJson {v : Value} (h : v.isLossless = true) : ofJson v.toJson = v.arranged :=
  (ofJson_toJson_iff v).2 (keeps_of_isLossless h)

/-- **A value without floats and repeated names is read back from its text**, with the fields of
every record in the order of their names, unless it nests too deep. -/
theorem read_lossless {v : Value} (h : v.isLossless = true) (hd : v.depth ≤ Json.maxDepth) :
    (Json.parse? v.toJson.render).map ofJson = some v.arranged := by
  rw [Json.parse?_render, scanned?_toJson h, Option.bind_some,
    if_pos (Nat.le_trans (depth_toJson_le v) hd), sorted_toJson, Option.map_some, ofJson_toJson h]

/-! ## What is read of any item -/

def reread? (v : Value) : Option Value := v.toJson.scanned?.map fun j => ofJson j.sorted

/-- **Nothing but an integer is read back as one.** -/
theorem reread?_eq_int_iff {v : Value} {i : Int64} : v.reread? = some (.int i) ↔ v = .int i := by
  constructor
  · intro h
    obtain ⟨j, hj, h⟩ := Option.map_eq_some_iff.1 h
    cases v with
    | null | bool b | string s =>
      cases hj
      cases h
    | int k =>
      cases hj
      cases h
      rfl
    | float d =>
      rw [toJson] at hj
      split at hj
      · rename_i hd
        rw [Json.scanned?, if_pos hd] at hj
        obtain ⟨d', rfl⟩ := Json.Token.number?_floatText hd hj
        cases h
      · cases hj
        cases h
    | list vs =>
      obtain ⟨js, -, rfl⟩ := Option.map_eq_some_iff.1 hj
      cases h
    | record item =>
      obtain ⟨fields⟩ := item
      obtain ⟨ms, -, rfl⟩ := Option.map_eq_some_iff.1 hj
      cases h
  · rintro rfl
    rfl

end Value

theorem lookup_membersScanned? {ms ks : List (String × Json)} (h : Json.membersScanned? ms = some ks)
    (name : String) : Record.lookup name ks = (Record.lookup name ms).bind Json.scanned? := by
  induction ms generalizing ks with
  | nil =>
    cases h
    rfl
  | cons m rest ih =>
    obtain ⟨k, hk, h⟩ := Option.bind_eq_some_iff.1 h
    obtain ⟨ks, hks, rfl⟩ := Option.map_eq_some_iff.1 h
    rw [Record.lookup, Record.lookup]
    split
    · exact hk.symm
    · exact ih hks

/-- **An item whose text can be read is read back field by field**: it keeps its names, and under each
name is found what is read back of the last value that the item has under it. -/
theorem Item.get?_of_parse? {item : Item} {j : Json} (h : Json.parse? item.toJson.render = some j) :
    ∃ r : Item, Value.ofJson j = .record r ∧ (∀ name, r.contains name = item.contains name) ∧
      ∀ name, r.get? name = (Record.lookup name item.fields.reverse).bind Value.reread? := by
  obtain ⟨fields⟩ := item
  rw [Item.toJson, Value.toJson_record, Json.parse?_render] at h
  obtain ⟨k, hk, h⟩ := Option.bind_eq_some_iff.1 h
  obtain ⟨ks, hks, rfl⟩ := Option.map_eq_some_iff.1 hk
  split at h
  · cases h
    have hnames := Json.names_membersScanned? hks
    have hascending : Json.Ascending (Json.membersSorted ks) := by
      have hms := Json.ascending_sortedMembers (fields.map fun f => (f.1, f.2.toJson))
      rw [Json.ascending_iff, ← hnames] at hms
      rw [Json.ascending_iff, Json.membersSorted_eq, List.map_map]
      exact hms
    have hget (name : String) : (Record.ofFields (fieldsOfJson (Json.membersSorted ks))).get? name =
        (Record.lookup name ks).map fun k => Value.ofJson k.sorted := by
      rw [Record.get?_ofFields, fieldsOfJson_eq, Json.membersSorted_eq, Record.lookup_mapValues,
        Record.lookup_mapValues, Option.map_map]
      rfl
    have hlast (name : String) :
        Record.lookup name (Json.sortedMembers (fields.map fun f => (f.1, f.2.toJson))) =
          (Record.lookup name fields.reverse).map Value.toJson := by
      rw [Json.lookup_sortedMembers, ← List.map_reverse, Record.lookup_mapValues]
    refine ⟨Record.ofFields (fieldsOfJson (Json.membersSorted ks)), ?_, fun name => ?_, fun name => ?_⟩
    · rw [Json.sorted, Json.ofMembers_eq, Json.sortedMembers_of_ascending hascending, Value.ofJson]
    · rw [Record.contains, hget, Option.isSome_map, Bool.eq_iff_iff, Record.lookup_isSome_iff, hnames,
        ← Record.lookup_isSome_iff, hlast, Option.isSome_map, Record.lookup_isSome_iff,
        List.map_reverse, List.mem_reverse]
      exact (Record.contains_iff _ _).symm
    · rw [hget, lookup_membersScanned? hks, hlast]
      cases Record.lookup name fields.reverse <;> rfl
  · cases h

end GraphQuery
