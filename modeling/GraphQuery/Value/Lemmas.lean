import GraphQuery.Value.Basic
/-!
# What records keep

What is found in a record, and under which names, after a field was set or added.  A field keeps
its place (`names_set`), other fields keep their values (`get?_set`), and an identifier is never
changed (`id?_set`).
-/

namespace GraphQuery

namespace Record

variable {V : Type}

theorem lookup_isSome_iff (name : String) (fields : List (String × V)) :
    (lookup name fields).isSome ↔ name ∈ fields.map Prod.fst := by
  induction fields with
  | nil => simp [lookup]
  | cons f rest ih =>
    obtain ⟨n, v⟩ := f
    by_cases h : n = name
    · simp [lookup, h]
    · simp [lookup, h, ih, Ne.symm h]

theorem contains_iff (r : Record V) (name : String) : r.contains name = true ↔ name ∈ r.names :=
  lookup_isSome_iff name r.fields

theorem lookup_append (name : String) (xs ys : List (String × V)) :
    lookup name (xs ++ ys) = (lookup name xs).or (lookup name ys) := by
  induction xs with
  | nil => simp [lookup]
  | cons f rest ih =>
    obtain ⟨n, v⟩ := f
    by_cases h : n = name <;> simp [lookup, h, ih]

theorem lookup_mapValues {W : Type} (g : V → W) (name : String) (fields : List (String × V)) :
    lookup name (fields.map fun f => (f.1, g f.2)) = (lookup name fields).map g := by
  induction fields with
  | nil => rfl
  | cons f rest ih =>
    rw [List.map_cons, lookup, lookup, ih]
    split <;> rfl

theorem map_fst_of_replace? {name : String} {value : V} {fields changed : List (String × V)}
    (h : replace? name value fields = some changed) :
    changed.map Prod.fst = fields.map Prod.fst := by
  induction fields generalizing changed with
  | nil => simp [replace?] at h
  | cons f rest ih =>
    obtain ⟨n, v⟩ := f
    simp only [replace?] at h
    split at h
    · cases h
      rfl
    · obtain ⟨kept, hk, rfl⟩ := Option.map_eq_some_iff.1 h
      simp [ih hk]

theorem replace?_eq_none_iff {name : String} {value : V} {fields : List (String × V)} :
    replace? name value fields = none ↔ name ∉ fields.map Prod.fst := by
  induction fields with
  | nil => simp [replace?]
  | cons f rest ih =>
    obtain ⟨n, v⟩ := f
    by_cases h : n = name
    · simp [replace?, h]
    · simp [replace?, h, ih, Ne.symm h]

theorem lookup_of_replace? {name : String} {value : V} {fields changed : List (String × V)}
    (h : replace? name value fields = some changed) (other : String) :
    lookup other changed = if other = name then some value else lookup other fields := by
  induction fields generalizing changed with
  | nil => simp [replace?] at h
  | cons f rest ih =>
    obtain ⟨n, v⟩ := f
    simp only [replace?] at h
    split at h
    next hn =>
      cases h
      subst hn
      by_cases ho : other = n
      · simp [lookup, ho]
      · simp [lookup, ho, Ne.symm ho]
    next hn =>
      obtain ⟨kept, hk, rfl⟩ := Option.map_eq_some_iff.1 h
      by_cases ho : n = other
      · subst ho
        simp [lookup, hn]
      · simp [lookup, ho, ih hk]

theorem names_set (r : Record V) (name : String) (value : V) :
    (r.set name value).names = if r.contains name then r.names else r.names ++ [name] := by
  unfold set
  split
  next h =>
    obtain ⟨rfl, h⟩ := h
    simp only [hasId, id?] at h
    simp [contains, h]
  next =>
    cases hr : replace? name value r.fields with
    | none =>
      have := replace?_eq_none_iff.1 hr
      simp [contains_iff, names, this]
    | some changed =>
      have hm : r.contains name = true := by
        rw [contains_iff, names]
        exact Classical.byContradiction fun hn => by
          rw [replace?_eq_none_iff.2 hn] at hr
          cases hr
      simp [hm, names, map_fst_of_replace? hr]

theorem nodup_add {r : Record V} {name : String} (h : r.names.Nodup) :
    (if r.contains name then r.names else r.names ++ [name]).Nodup := by
  split
  · exact h
  next hn =>
    rw [contains_iff] at hn
    rw [List.nodup_append]
    refine ⟨h, by simp, fun a ha b hb he => ?_⟩
    rw [List.mem_singleton] at hb
    exact hn (hb ▸ he ▸ ha)

/-- What is found after setting a field, unless it is the identifier of a record that has one. -/
theorem get?_set (r : Record V) (name : String) (value : V) (h : ¬(name = idField ∧ r.hasId))
    (other : String) :
    (r.set name value).get? other = if other = name then some value else r.get? other := by
  simp only [set, h, if_false, get?]
  cases hr : replace? name value r.fields with
  | some changed => exact lookup_of_replace? hr other
  | none =>
    have hn := replace?_eq_none_iff.1 hr
    rw [← lookup_isSome_iff] at hn
    by_cases ho : other = name
    · subst ho
      simp [lookup_append, lookup, Option.not_isSome_iff_eq_none.1 hn]
    · simp [lookup_append, lookup, ho, Ne.symm ho]

theorem id?_set (r : Record V) (name : String) (value : V) (h : r.hasId) :
    (r.set name value).id? = r.id? := by
  by_cases hn : name = idField
  · simp [set, hn, h]
  · rw [id?, get?_set r name value (fun h => hn h.1), if_neg (Ne.symm hn)]
    rfl

theorem get?_insertNew (r : Record V) (name : String) (value : V) (other : String) :
    (r.insertNew name value).get? other =
      (r.get? other).or (if other = name then some value else none) := by
  unfold insertNew
  split
  next h =>
    by_cases ho : other = name
    · subst ho
      simp only [contains, Option.isSome_iff_exists] at h
      obtain ⟨v, h⟩ := h
      simp [h]
    · simp [ho]
  next h =>
    simp only [get?, lookup_append, lookup]
    by_cases ho : other = name
    · simp [ho]
    · simp [ho, Ne.symm ho]

theorem replace?_self {name : String} {v : V} : ∀ {fields : List (String × V)},
    lookup name fields = some v → replace? name v fields = some fields
  | [], h => by cases h
  | (n, w) :: rest, h => by
    simp only [lookup] at h
    simp only [replace?]
    split at h
    · cases h
      rename_i hn
      rw [if_pos hn]
    · rename_i hn
      rw [if_neg hn, replace?_self h]
      rfl

theorem set_of_get? {r : Record V} {name : String} {v : V} (h : r.get? name = some v) :
    r.set name v = r := by
  unfold set
  split
  next => rfl
  next => rw [replace?_self h]

theorem filter_of_replace? {name : String} {value : V} {fields changed : List (String × V)}
    (h : replace? name value fields = some changed) :
    changed.filter (·.1 ≠ name) = fields.filter (·.1 ≠ name) := by
  induction fields generalizing changed with
  | nil => cases h
  | cons f rest ih =>
    obtain ⟨n, v⟩ := f
    rw [replace?] at h
    split at h
    next hn =>
      cases h
      rw [List.filter_cons_of_neg (by simpa using hn), List.filter_cons_of_neg (by simpa using hn)]
    next hn =>
      obtain ⟨kept, hk, rfl⟩ := Option.map_eq_some_iff.1 h
      rw [List.filter_cons_of_pos (by simpa using hn), List.filter_cons_of_pos (by simpa using hn),
        ih hk]

/-- Setting a field leaves the other fields as they are, and in their order. -/
theorem filter_set (r : Record V) (name : String) (value : V) :
    (r.set name value).fields.filter (·.1 ≠ name) = r.fields.filter (·.1 ≠ name) := by
  unfold set
  split
  next => rfl
  next =>
    cases hr : replace? name value r.fields with
    | some changed => exact filter_of_replace? hr
    | none => simp

theorem set_of_new {r : Record V} {name : String} {v : V} (h : name ∉ r.names) :
    r.set name v = ⟨r.fields ++ [(name, v)]⟩ := by
  have hid : ¬(name = idField ∧ r.hasId = true) := by
    rintro ⟨rfl, hid⟩
    exact h ((contains_iff r idField).1 hid)
  rw [set, if_neg hid, replace?_eq_none_iff.2 h]

theorem insertNew_of_new {r : Record V} {name : String} {v : V} (h : name ∉ r.names) :
    r.insertNew name v = ⟨r.fields ++ [(name, v)]⟩ := by
  rw [insertNew, if_neg fun hc => h ((contains_iff r name).1 hc)]

theorem foldl_of_new {add : Record V → String → V → Record V}
    (ha : ∀ (r : Record V) (name : String) (v : V), name ∉ r.names →
      add r name v = ⟨r.fields ++ [(name, v)]⟩) :
    ∀ {fields : List (String × V)} {r : Record V},
      (r.names ++ fields.map Prod.fst).Nodup →
        fields.foldl (fun r f => add r f.1 f.2) r = ⟨r.fields ++ fields⟩
  | [], r, _ => by rw [List.append_nil]; rfl
  | (name, v) :: rest, r, h => by
    have hnew : name ∉ r.names := fun hm =>
      (List.nodup_append.1 h).2.2 name hm name List.mem_cons_self rfl
    rw [List.foldl_cons, ha r name v hnew, foldl_of_new ha, List.append_assoc]
    · rfl
    · simpa [names] using h

theorem ofFields_of_nodup {fields : List (String × V)} (h : (fields.map Prod.fst).Nodup) :
    ofFields fields = ⟨fields⟩ := foldl_of_new (fun _ _ _ => insertNew_of_new) h

theorem get?_addFields (name : String) : ∀ (fields : List (String × V)) (r : Record V),
    (fields.foldl (fun r f => r.insertNew f.1 f.2) r).get? name =
      (r.get? name).or (lookup name fields)
  | [], r => (Option.or_none).symm
  | (n, v) :: rest, r => by
    rw [List.foldl_cons, get?_addFields name rest, get?_insertNew, Option.or_assoc, lookup]
    by_cases h : n = name
    · simp [h]
    · simp [h, Ne.symm h]

theorem get?_ofFields (fields : List (String × V)) (name : String) :
    (ofFields fields).get? name = lookup name fields :=
  get?_addFields name fields empty

theorem names_project (r : Record V) (names : List String) :
    (r.project names).names = names.filter r.contains := by
  unfold project Record.names
  induction names with
  | nil => rfl
  | cons name rest ih =>
    cases hv : r.get? name with
    | none =>
      rw [List.filterMap_cons_none (by rw [hv]; rfl),
        List.filter_cons_of_neg (by rw [contains, hv]; simp), ih]
    | some v =>
      rw [List.filterMap_cons_some (b := (name, v)) (by rw [hv]; rfl),
        List.filter_cons_of_pos (by rw [contains, hv]; rfl), List.map_cons, ih]

theorem get?_project (r : Record V) (names : List String) (name : String) :
    (r.project names).get? name = if name ∈ names then r.get? name else none := by
  unfold project
  induction names with
  | nil => rfl
  | cons n rest ih =>
    rw [get?] at ih ⊢
    cases hv : r.get? n with
    | none =>
      rw [List.filterMap_cons_none (by rw [hv]; rfl), ih]
      by_cases hn : name = n
      · subst hn
        simp [hv]
      · simp [hn]
    | some v =>
      rw [List.filterMap_cons_some (b := (n, v)) (by rw [hv]; rfl), lookup, ih]
      by_cases hn : n = name
      · subst hn
        simp [hv]
      · simp [hn, Ne.symm hn]

end Record

/-- **Lists and records are built from values**, and every other value is a scalar. -/
theorem Value.induction {motive : Value → Prop} (null : motive .null)
    (bool : ∀ b, motive (.bool b)) (int : ∀ i, motive (.int i)) (float : ∀ d, motive (.float d))
    (string : ∀ s, motive (.string s))
    (list : ∀ vs, (∀ v ∈ vs, motive v) → motive (.list vs))
    (record : ∀ fields, (∀ f ∈ fields, motive f.2) → motive (.record ⟨fields⟩)) : ∀ v, motive v :=
  @Value.rec motive (fun vs => ∀ v ∈ vs, motive v) (fun item => ∀ f ∈ item.fields, motive f.2)
    (fun fields => ∀ f ∈ fields, motive f.2) (fun f => motive f.2)
    null bool int float string list (fun item h => record item.fields h)
    (fun _ h => absurd h List.not_mem_nil)
    (fun _ _ hv hvs => List.forall_mem_cons.2 ⟨hv, hvs⟩)
    (fun _ h => h)
    (fun _ h => absurd h List.not_mem_nil)
    (fun _ _ hf hfs => List.forall_mem_cons.2 ⟨hf, hfs⟩)
    (fun _ _ h => h)

end GraphQuery
