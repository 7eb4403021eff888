import GraphQuery.Proofs.Operation.Overlay
import Mathlib.Algebra.Ring.Int.Defs
/-!
# Merging values

Records are merged by laying the fields of the one over those of the other, where an identifier that
is there stays (`Item.mergeFields_eq`).  So merging values is associative as far as adding numbers
is: on values without floats whose integers are so small that three of them can be added
(`Value.merge_assoc`).  Null is neutral, and of several records the leftmost identifier is kept.
-/

namespace GraphQuery

/-! ## Merging records is laying fields over others -/

def Value.mergeIn (name : String) (left right : Value) : Except MergeConflict Value :=
  if name = idField then .ok left else Value.merge name left right

namespace Record

variable {V ε : Type} {name : String} {value : V}

theorem lookup_eq (name : String) : ∀ fields : List (String × V),
    lookup name fields = fields.lookup name
  | [] => rfl
  | (n, v) :: rest => by
    rw [lookup]
    split
    · rename_i h
      rw [h, List.lookup_cons_self]
    · rename_i h
      rw [Overlay.lookup_cons_of_ne (Ne.symm h), lookup_eq name rest]

theorem put_of_new {combine : V → V → Except ε V} : ∀ {fields : List (String × V)},
    lookup name fields = none →
      Overlay.put combine name value fields = .ok (fields ++ [(name, value)])
  | [], _ => rfl
  | (n, v) :: rest, h => by
    rw [lookup] at h
    split at h
    · cases h
    · rename_i hn
      rw [Overlay.put, if_neg hn, put_of_new h]
      rfl

theorem put_of_lookup {combine : V → V → Except ε V} {v : V} : ∀ {fields : List (String × V)},
    lookup name fields = some v → Overlay.put combine name value fields =
      (combine v value).map fun u => (replace? name u fields).getD fields
  | [], h => by cases h
  | (n, w) :: rest, h => by
    rw [lookup] at h
    split at h
    · rename_i hn
      cases h
      simp only [Overlay.put, replace?, if_pos hn, Option.getD_some]
    · rename_i hn
      simp only [Overlay.put, replace?, if_neg hn, put_of_lookup h, Option.getD_map]
      cases combine v value <;> rfl

theorem fields_set_of_get? {r : Record V} {v : V} (hn : name ≠ idField)
    (h : r.get? name = some v) (u : V) :
    (r.set name u).fields = (replace? name u r.fields).getD r.fields := by
  rw [set, if_neg fun hid => hn hid.1]
  cases hr : replace? name u r.fields with
  | some fields => rfl
  | none =>
    rw [get?] at h
    exact absurd ((lookup_isSome_iff name r.fields).1 (h ▸ rfl)) (replace?_eq_none_iff.1 hr)

end Record

namespace Item

theorem mergeFields_cons (left : Item) (name : String) (value : Value)
    (rest : List (String × Value)) : mergeFields left ((name, value) :: rest) =
      (Overlay.put (Value.mergeIn name) name value left.fields).bind fun fields =>
        mergeFields ⟨fields⟩ rest := by
  rw [mergeFields]
  cases hg : left.get? name with
  | none =>
    have hid : ¬(name = idField ∧ left.hasId = true) := by
      rintro ⟨rfl, hid⟩
      rw [Record.hasId, Record.id?, hg] at hid
      cases hid
    have hnew : name ∉ left.names := fun hm => by
      have hs := (Record.lookup_isSome_iff name left.fields).2 hm
      rw [show Record.lookup name left.fields = none from hg] at hs
      cases hs
    rw [if_neg hid, Record.put_of_new hg, Record.set_of_new hnew]
    rfl
  | some v =>
    rw [Record.put_of_lookup hg]
    by_cases hn : name = idField
    · subst hn
      have hid : left.hasId = true := by rw [Record.hasId, Record.id?, hg]; rfl
      rw [if_pos ⟨rfl, hid⟩, Value.mergeIn, if_pos rfl]
      show mergeFields left rest = mergeFields ⟨(Record.replace? idField v left.fields).getD _⟩ rest
      rw [Record.replace?_self hg]
      rfl
    · rw [if_neg fun h => hn h.1, Value.mergeIn, if_neg hn]
      dsimp only
      cases Value.merge name v value with
      | error conflict => rfl
      | ok u =>
        show mergeFields (left.set name u) rest =
          mergeFields ⟨(Record.replace? name u left.fields).getD left.fields⟩ rest
        rw [← Record.fields_set_of_get? hn hg u]

/-- **Merging records lays fields over others.** -/
theorem mergeFields_eq : ∀ (fields : List (String × Value)) (left : Item),
    mergeFields left fields =
      (Overlay.overlay Value.mergeIn left.fields fields).map Record.mk
  | [], _ => rfl
  | (name, value) :: rest, left => by
    rw [mergeFields_cons, Overlay.overlay]
    cases Overlay.put (Value.mergeIn name) name value left.fields with
    | error conflict => rfl
    | ok fields => exact mergeFields_eq rest ⟨fields⟩

end Item

/-! ## Values whose numbers add up -/

mutual

/--
Whether a value holds no floats, integers of which three can be added, and records with distinct
field names, at every depth.
-/
def Value.isExact : Value → Bool
  | .int i => -2 ^ 61 ≤ i.toInt ∧ i.toInt ≤ 2 ^ 61
  | .float _ => false
  | .list vs => elementsExact vs
  | .record ⟨fields⟩ => decide (fields.map Prod.fst).Nodup && fieldsExact fields
  | _ => true
termination_by structural v => v

def elementsExact : List Value → Bool
  | [] => true
  | v :: rest => v.isExact && elementsExact rest
termination_by structural vs => vs

def fieldsExact : List (String × Value) → Bool
  | [] => true
  | (_, v) :: rest => v.isExact && fieldsExact rest
termination_by structural fields => fields

end

theorem fieldsExact_iff : ∀ {fields : List (String × Value)},
    fieldsExact fields = true ↔ ∀ f ∈ fields, f.2.isExact = true
  | [] => by simp [fieldsExact]
  | f :: rest => by
    rw [fieldsExact, Bool.and_eq_true, fieldsExact_iff, List.forall_mem_cons]

namespace Value

variable {field : String} {a b c v : Value}

theorem isExact_record {item : Item} : (record item).isExact = true ↔
    item.names.Nodup ∧ ∀ f ∈ item.fields, f.2.isExact = true := by
  obtain ⟨fields⟩ := item
  rw [isExact, Bool.and_eq_true, decide_eq_true_eq, fieldsExact_iff]
  rfl

theorem isExact_int {i : Int64} :
    (int i).isExact = true ↔ -2 ^ 61 ≤ i.toInt ∧ i.toInt ≤ 2 ^ 61 := decide_eq_true_iff

/-! ## Null is neutral -/

theorem null_merge (field : String) (v : Value) : Value.merge field null v = .ok v := by
  cases v <;> rfl

theorem merge_null (field : String) (v : Value) : Value.merge field v null = .ok v := by
  cases v <;> rfl

/-! ## Values of one kind -/

def IsStrict (v : Value) : Prop := v.kind ≠ .null ∧ v.kind ≠ .float

theorem IsStrict.of_kind (hb : b.IsStrict) (h : a.kind = b.kind) : a.IsStrict := by
  rwa [IsStrict, h]

theorem kind_eq_of_merge (ha : a.IsStrict) (hb : b.IsStrict) (h : Value.merge field a b = .ok v) :
    a.kind = b.kind := by
  cases a <;> cases b <;>
    first
    | exact absurd rfl ha.1
    | exact absurd rfl ha.2
    | exact absurd rfl hb.1
    | exact absurd rfl hb.2
    | rfl
    | cases h

theorem addInts_eq (i j : Int64) (hl : -2 ^ 63 ≤ i.toInt + j.toInt)
    (hu : i.toInt + j.toInt < 2 ^ 63) :
    addInts i j = .int (i + j) ∧ (i + j).toInt = i.toInt + j.toInt := by
  have hsum : Int64.ofInt (i.toInt + j.toInt) = i + j := by
    rw [Int64.ofInt_add, Int64.ofInt_toInt, Int64.ofInt_toInt]
  have hmin : Int64.minValue.toInt = -2 ^ 63 := rfl
  have hmax : Int64.maxValue.toInt = 2 ^ 63 - 1 := rfl
  constructor
  · rw [addInts, if_pos ⟨hmin ▸ hl, hmax ▸ Int.le_sub_one_of_lt hu⟩, hsum]
  · rw [← hsum, Int64.toInt_ofInt_of_le hl hu]

theorem kind_of_merge (ha : a.isExact = true) (hb : b.isExact = true) (hn : a.IsStrict)
    (hk : a.kind = b.kind) (h : Value.merge field a b = .ok v) : v.kind = a.kind := by
  cases a with
  | null => exact absurd rfl hn.1
  | float _ => exact absurd rfl hn.2
  | bool _ => cases b with
    | bool _ => cases h; rfl
    | _ => cases hk
  | int i => cases b with
    | int j =>
      rw [isExact_int] at ha hb
      cases h
      rw [(addInts_eq i j (by omega) (by omega)).1]
      rfl
    | _ => cases hk
  | string _ => cases b with
    | string _ => cases h; rfl
    | _ => cases hk
  | list _ => cases b with
    | list _ => cases h; rfl
    | _ => cases hk
  | record _ => cases b with
    | record _ =>
      obtain ⟨item, -, rfl⟩ := Except.map_eq_ok.1 h
      rfl
    | _ => cases hk

theorem isStrict_of_isExact (h : a.isExact = true) (hn : a ≠ .null) : a.IsStrict := by
  cases a with
  | null => exact absurd rfl hn
  | float _ => cases h
  | _ => exact ⟨nofun, nofun⟩

theorem associates_of_kind (ha : a.isExact = true) (hb : b.isExact = true) (hc : c.isExact = true)
    (h : a.kind = b.kind → b.kind = c.kind → Associates (Value.merge field) a b c) :
    Associates (Value.merge field) a b c := by
  intro d
  by_cases hna : a = null
  · simp [hna, null_merge]
  by_cases hnb : b = null
  · simp [hnb, null_merge, merge_null]
  by_cases hnc : c = null
  · simp [hnc, merge_null]
  have hsa := isStrict_of_isExact ha hna
  have hsb := isStrict_of_isExact hb hnb
  have hsc := isStrict_of_isExact hc hnc
  constructor
  · rintro ⟨ab, hab, hd⟩
    have hk := kind_eq_of_merge hsa hsb hab
    have hkab := kind_of_merge ha hb hsa hk hab
    have hk' := kind_eq_of_merge (hsa.of_kind hkab) hsc hd
    exact (h hk (hk.symm.trans (hkab.symm.trans hk')) d).1 ⟨ab, hab, hd⟩
  · rintro ⟨bc, hbc, hd⟩
    have hk := kind_eq_of_merge hsb hsc hbc
    have hkbc := kind_of_merge hb hc hsb hk hbc
    have hk' := kind_eq_of_merge hsa (hsb.of_kind hkbc) hd
    exact (h (hk'.trans hkbc) hk d).2 ⟨bc, hbc, hd⟩

theorem associates_ints {i j k : Int64} (hi : (int i).isExact = true) (hj : (int j).isExact = true)
    (hk : (int k).isExact = true) : Associates (Value.merge field) (int i) (int j) (int k) := by
  rw [isExact_int] at hi hj hk
  obtain ⟨hij, hsij⟩ := addInts_eq i j (by omega) (by omega)
  obtain ⟨hjk, hsjk⟩ := addInts_eq j k (by omega) (by omega)
  obtain ⟨hl, -⟩ := addInts_eq (i + j) k (by omega) (by omega)
  obtain ⟨hr, -⟩ := addInts_eq i (j + k) (by omega) (by omega)
  rw [← Int64.add_assoc] at hr
  exact associates_of_eq (congrArg Except.ok hij) (congrArg Except.ok hjk) (congrArg Except.ok hl)
    (congrArg Except.ok hr)

theorem merge_records (field : String) (xs ys : List (String × Value)) :
    Value.merge field (record ⟨xs⟩) (record ⟨ys⟩) =
      (Overlay.overlay mergeIn xs ys).map fun fields => record ⟨fields⟩ := by
  rw [Value.merge, Item.mergeFields_eq]
  cases Overlay.overlay mergeIn xs ys <;> rfl

theorem associates_records {xs ys zs : List (String × Value)} (hx : (xs.map Prod.fst).Nodup)
    (hy : (ys.map Prod.fst).Nodup) (hz : (zs.map Prod.fst).Nodup)
    (h : ∀ k a b c, xs.lookup k = some a → ys.lookup k = some b → zs.lookup k = some c →
      Associates (Value.merge k) a b c) :
    Associates (Value.merge field) (record ⟨xs⟩) (record ⟨ys⟩) (record ⟨zs⟩) := by
  refine Associates.map (merge_records field)
    (Overlay.associates_overlay hx hy hz fun k a b c ha hb hc => ?_)
  by_cases hk : k = idField
  · -- of three identifiers the first one stays, in either order
    have hfirst (v w : Value) : mergeIn k v w = .ok v := if_pos hk
    exact associates_of_eq (hfirst a b) (hfirst b c) (hfirst a c) (hfirst a b)
  · have hsame : mergeIn k = Value.merge k := funext₂ fun v w => if_neg hk
    exact hsame ▸ h k a b c ha hb hc

theorem isExact_of_lookup {fields : List (String × Value)} {k : String}
    (h : (record ⟨fields⟩).isExact = true) (hv : fields.lookup k = some v) : v.isExact = true :=
  (isExact_record.1 h).2 (k, v) (Overlay.mem_of_lookup hv)

/-- **Merging exact values is associative.** -/
theorem associates_merge (a : Value) : ∀ (field : String) (b c : Value), a.isExact = true →
    b.isExact = true → c.isExact = true → Associates (Value.merge field) a b c := by
  induction a using Value.induction with
  | null =>
    intro field b c _ _ _ d
    simp [null_merge]
  | float _ => intro _ _ _ ha; cases ha
  | bool x =>
    intro field b c ha hb hc
    refine associates_of_kind ha hb hc fun hk hk' => ?_
    cases b with
    | bool y => cases c with
      | bool z =>
        exact associates_of_eq rfl rfl rfl (congrArg (Except.ok ∘ bool) (Bool.or_assoc x y z).symm)
      | _ => cases hk'
    | _ => cases hk
  | int i =>
    intro field b c ha hb hc
    refine associates_of_kind ha hb hc fun hk hk' => ?_
    cases b with
    | int j => cases c with
      | int k => exact associates_ints ha hb hc
      | _ => cases hk'
    | _ => cases hk
  | string s =>
    intro field b c ha hb hc
    refine associates_of_kind ha hb hc fun hk hk' => ?_
    cases b with
    | string t => cases c with
      | string u =>
        exact associates_of_eq rfl rfl rfl
          (congrArg (Except.ok ∘ string) String.append_assoc.symm)
      | _ => cases hk'
    | _ => cases hk
  | list xs =>
    intro field b c ha hb hc
    refine associates_of_kind ha hb hc fun hk hk' => ?_
    cases b with
    | list ys => cases c with
      | list zs =>
        exact associates_of_eq rfl rfl rfl
          (congrArg (Except.ok ∘ list) (List.append_assoc xs ys zs).symm)
      | _ => cases hk'
    | _ => cases hk
  | record xs ih =>
    intro field b c ha hb hc
    refine associates_of_kind ha hb hc fun hk hk' => ?_
    cases b with
    | record y => cases c with
      | record z =>
        refine associates_records (isExact_record.1 ha).1 (isExact_record.1 hb).1
          (isExact_record.1 hc).1 fun k u v w hu hv hw => ?_
        exact ih (k, u) (Overlay.mem_of_lookup hu) k v w
          (isExact_of_lookup ha hu) (isExact_of_lookup hb hv) (isExact_of_lookup hc hw)
      | _ => cases hk'
    | _ => cases hk

/-! ## Identifiers -/

def identifier? : Value → Option Value
  | record item => item.id?
  | _ => none

theorem identifier?_addInts (i j : Int64) : (addInts i j).identifier? = none := by
  rw [addInts]
  split <;> rfl

theorem identifier?_merge (hb : b.isExact = true) (h : Value.merge field a b = .ok v) :
    v.identifier? = a.identifier?.or b.identifier? := by
  cases b with
  | null =>
    cases (merge_null field a).symm.trans h
    exact Option.or_none.symm
  | record y =>
    cases a with
    | null => cases h; rfl
    | record x =>
      rw [show record x = record ⟨x.fields⟩ from rfl, show record y = record ⟨y.fields⟩ from rfl,
        merge_records] at h
      obtain ⟨fields, hm, rfl⟩ := Except.map_eq_ok.1 h
      have hid := Overlay.lookup_overlay idField (isExact_record.1 hb).1 hm
      simp only [identifier?, Record.id?, Record.get?, Record.lookup_eq]
      cases hx : x.fields.lookup idField <;> cases hy : y.fields.lookup idField <;>
        rw [hx, hy] at hid <;> exact (Except.ok.inj hid).symm
    | _ => cases h
  | int j =>
    cases a with
    | int i => cases h; exact identifier?_addInts i j
    | null => cases h; rfl
    | float _ => cases h; rfl
    | _ => cases h
  | _ => cases a <;> cases h <;> rfl

/--
**Merging is associative and null is neutral.**  Both groupings of exact values fail, or both come
to the same value, with the leftmost identifier.
-/
theorem merge_assoc (field : String) (ha : a.isExact = true) (hb : b.isExact = true)
    (hc : c.isExact = true) :
    ((Value.merge field a b).bind (Value.merge field · c)).toOption =
        ((Value.merge field b c).bind (Value.merge field a ·)).toOption ∧
      (∀ v, (Value.merge field a b).bind (Value.merge field · c) = .ok v →
        v.identifier? = (a.identifier?.or b.identifier?).or c.identifier?) ∧
        ∀ v, Value.merge field null v = .ok v ∧ Value.merge field v null = .ok v := by
  refine ⟨(associates_merge a field b c ha hb hc).toOption_eq, fun v hv => ?_,
    fun v => ⟨null_merge field v, merge_null field v⟩⟩
  obtain ⟨ab, hab, hv⟩ := Except.bind_eq_ok.1 hv
  rw [identifier?_merge hc hv, identifier?_merge hb hab]

/-- Records with nulls, missing fields and two identifiers, one of them within a field. -/
theorem merge_assoc_records :
    let r (fields : List (String × Value)) : Value := .record ⟨fields⟩
    let a := r [("n", .int 1), ("sub", r [("s", .string "p")])]
    let b := r [(idField, .int 7), ("n", .null), ("t", .list [.int 1]),
      ("sub", r [(idField, .null), ("s", .string "q")])]
    let c := r [("t", .list [.int 2]), (idField, .int 9), ("n", .int 2305843009213693952)]
    (a.isExact = true ∧ b.isExact = true ∧ c.isExact = true) ∧
      ((Value.merge "f" a b).bind (Value.merge "f" · c)).toOption =
        ((Value.merge "f" b c).bind (Value.merge "f" a ·)).toOption ∧
      (Value.merge "f" a b).bind (Value.merge "f" · c) = .ok (r [("n", .int 2305843009213693953),
        ("sub", r [("s", .string "pq"), (idField, .null)]), (idField, .int 7),
        ("t", .list [.int 1, .int 2])]) := by
  intro r a b c
  have ha : a.isExact = true := by decide
  have hb : b.isExact = true := by decide
  have hc : c.isExact = true := by decide
  exact ⟨⟨ha, hb, hc⟩, (merge_assoc "f" ha hb hc).1, rfl⟩

end Value

end GraphQuery
