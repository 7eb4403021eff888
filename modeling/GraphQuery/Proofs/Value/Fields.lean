import GraphQuery.Value.Lemmas
import Mathlib.Data.List.Induction
import Mathlib.Data.List.Nodup
/-!
# Fields of records

A field is found under its name, if no other field has that name (`Record.lookup_of_mem`).  A field
that is overwritten keeps its place (`Record.names_of_assign?`), one that is removed leaves the others
as they are (`Record.take?_eq`), and a record to which fields were added one after another has the
names of these fields, each where it is first (`Record.names_foldl_add`).
-/

namespace GraphQuery

namespace Record

variable {V : Type} {name : String} {v : V}

/-! ## Fields found -/

theorem mem_of_lookup : ∀ {fields : List (String × V)},
    lookup name fields = some v → (name, v) ∈ fields
  | [], h => by cases h
  | (n, w) :: rest, h => by
    simp only [lookup] at h
    split at h
    · rename_i hn
      cases h
      rw [hn]
      exact List.mem_cons_self
    · exact List.mem_cons_of_mem _ (mem_of_lookup h)

theorem lookup_of_mem : ∀ {fields : List (String × V)},
    (fields.map Prod.fst).Nodup → (name, v) ∈ fields → lookup name fields = some v
  | [], _, h => by cases h
  | (n, w) :: rest, hn, h => by
    rw [List.map_cons, List.nodup_cons] at hn
    simp only [lookup]
    rcases List.mem_cons.1 h with h | h
    · cases h
      rw [if_pos rfl]
    · have hne : n ≠ name := fun he => hn.1 (he ▸ List.mem_map.2 ⟨_, h, rfl⟩)
      rw [if_neg hne, lookup_of_mem hn.2 h]

theorem lookup_eq_some_iff {fields : List (String × V)} (h : (fields.map Prod.fst).Nodup) :
    lookup name fields = some v ↔ (name, v) ∈ fields := ⟨mem_of_lookup, lookup_of_mem h⟩

theorem filter_of_nodup : ∀ {fields : List (String × V)}, (fields.map Prod.fst).Nodup →
    fields.filter (·.1 = name) = (lookup name fields).toList.map fun v => (name, v)
  | [], _ => rfl
  | (n, w) :: rest, h => by
    rw [List.map_cons, List.nodup_cons] at h
    have hrest := filter_of_nodup h.2
    rw [lookup]
    split
    next hn =>
      subst hn
      have hnone : lookup n rest = none := by
        rw [← Option.not_isSome_iff_eq_none, lookup_isSome_iff]
        exact h.1
      rw [List.filter_cons_of_pos (by simp), hrest, hnone]
      rfl
    next hn => rw [List.filter_cons_of_neg (by simpa using hn), hrest]

theorem exists_middle_of_lookup : ∀ {fields : List (String × V)}, lookup name fields = some v →
    ∃ pre post, fields = pre ++ (name, v) :: post ∧ name ∉ pre.map Prod.fst
  | [], h => by cases h
  | (other, w) :: rest, h => by
    rw [lookup] at h
    split at h
    · rename_i ho
      cases h
      exact ⟨[], rest, by rw [ho]; rfl, List.not_mem_nil⟩
    · rename_i ho
      obtain ⟨pre, post, rfl, hpre⟩ := exists_middle_of_lookup h
      exact ⟨(other, w) :: pre, post, rfl, by simp [hpre, Ne.symm ho]⟩

theorem replace?_middle {v' : V} {post : List (String × V)} :
    ∀ {pre : List (String × V)}, name ∉ pre.map Prod.fst →
      replace? name v' (pre ++ (name, v) :: post) = some (pre ++ (name, v') :: post)
  | [], _ => if_pos rfl
  | (other, u) :: pre, h => by
    rw [List.map_cons, List.mem_cons, not_or] at h
    rw [List.cons_append, replace?, if_neg (Ne.symm h.1), replace?_middle h.2]
    rfl

/-! ## Names without their repetitions -/

theorem eraseDups_concat (names : List String) (name : String) :
    (names ++ [name]).eraseDups =
      if name ∈ names then names.eraseDups else names.eraseDups ++ [name] := by
  rw [List.eraseDups_append, List.cons_removeAll, List.nil_removeAll]
  by_cases hf : name ∈ names
  · simp [hf]
  · simp [hf, List.eraseDups_cons]

theorem nodup_eraseDups (names : List String) : names.eraseDups.Nodup := by
  induction names using List.reverseRecOn with
  | nil => exact .nil
  | append_singleton names name ih =>
    rw [eraseDups_concat]
    split
    next => exact ih
    next hf =>
      rw [← List.concat_eq_append]
      exact ih.concat fun hm => hf (List.mem_eraseDups.1 hm)

/-! ## Fields that may be overwritten -/

theorem writable?_eq_some {r : Record V} {name : String} {v : V} :
    r.writable? name = some v ↔ name ≠ idField ∧ r.get? name = some v := by
  unfold writable?
  split
  · rename_i hn
    simp [hn]
  · rename_i hn
    simp [hn]

theorem assign?_eq_some {r r' : Record V} {name : String} {value : V} :
    r.assign? name value = some r' ↔
      name ≠ idField ∧ ∃ fields, replace? name value r.fields = some fields ∧ ⟨fields⟩ = r' := by
  unfold assign?
  split
  · rename_i hn
    simp [hn]
  · rename_i hn
    simp [hn]

theorem assign?_self {r : Record V} {name : String} {v : V} (h : r.writable? name = some v) :
    r.assign? name v = some r := by
  obtain ⟨hn, hg⟩ := writable?_eq_some.1 h
  exact assign?_eq_some.2 ⟨hn, _, replace?_self hg, rfl⟩

theorem exists_assign? {r : Record V} {name : String} {v : V} (h : r.writable? name = some v)
    (value : V) : ∃ r', r.assign? name value = some r' := by
  obtain ⟨hn, hg⟩ := writable?_eq_some.1 h
  cases hr : replace? name value r.fields with
  | some fields => exact ⟨_, assign?_eq_some.2 ⟨hn, fields, hr, rfl⟩⟩
  | none =>
    have hs := (lookup_isSome_iff name r.fields).1 (by rw [← get?, hg]; rfl)
    exact absurd hs (replace?_eq_none_iff.1 hr)

theorem get?_of_assign? {r r' : Record V} {name : String} {value : V}
    (h : r.assign? name value = some r') (other : String) :
    r'.get? other = if other = name then some value else r.get? other := by
  obtain ⟨-, fields, hf, rfl⟩ := assign?_eq_some.1 h
  exact lookup_of_replace? hf other

theorem ne_idField_of_assign? {r r' : Record V} {name : String} {value : V}
    (h : r.assign? name value = some r') : name ≠ idField := (assign?_eq_some.1 h).1

theorem writable?_of_assign? {r r' : Record V} {name : String} {value : V}
    (h : r.assign? name value = some r') (other : String) :
    r'.writable? other = if other = name then some value else r.writable? other := by
  have hn := ne_idField_of_assign? h
  unfold writable?
  rw [get?_of_assign? h]
  by_cases ho : other = name
  · simp [ho, hn]
  · simp [ho]

theorem id?_of_assign? {r r' : Record V} {name : String} {value : V}
    (h : r.assign? name value = some r') : r'.id? = r.id? := by
  have hn := ne_idField_of_assign? h
  rw [id?, get?_of_assign? h, if_neg (Ne.symm hn)]
  rfl

theorem names_of_assign? {r r' : Record V} {name : String} {value : V}
    (h : r.assign? name value = some r') : r'.names = r.names := by
  obtain ⟨-, fields, hf, rfl⟩ := assign?_eq_some.1 h
  exact map_fst_of_replace? hf

/-! ## Fields that may be removed -/

theorem take?_eq : ∀ fields : List (String × V), take? name fields =
    (lookup name fields).map fun v => (v, fields.eraseP (·.1 = name))
  | [] => rfl
  | (n, w) :: rest => by
    rw [take?, lookup]
    split
    next hn => rw [List.eraseP_cons_of_pos (by simpa using hn), Option.map_some]
    next hn =>
      rw [List.eraseP_cons_of_neg (by simpa using hn), take?_eq rest, Option.map_map]
      rfl

theorem remove?_eq (r : Record V) {name : String} (hn : name ≠ idField) :
    r.remove? name = (r.get? name).map fun v => (v, ⟨r.fields.eraseP (·.1 = name)⟩) := by
  rw [remove?, if_neg hn, take?_eq, Option.map_map]
  rfl

theorem map_fst_eraseP : ∀ fields : List (String × V),
    (fields.eraseP (·.1 = name)).map Prod.fst = (fields.map Prod.fst).erase name
  | [] => rfl
  | (n, w) :: rest => by
    by_cases hn : n = name
    · rw [List.eraseP_cons_of_pos (by simpa using hn), List.map_cons, hn, List.erase_cons_head]
    · rw [List.eraseP_cons_of_neg (by simpa using hn), List.map_cons, List.map_cons,
        List.erase_cons_tail (by simpa using hn), map_fst_eraseP rest]

theorem lookup_eraseP {other : String} (h : other ≠ name) : ∀ fields : List (String × V),
    lookup other (fields.eraseP (·.1 = name)) = lookup other fields
  | [] => rfl
  | (n, w) :: rest => by
    by_cases hn : n = name
    · rw [List.eraseP_cons_of_pos (by simpa using hn), lookup, if_neg fun he => h (he.symm.trans hn)]
    · rw [List.eraseP_cons_of_neg (by simpa using hn), lookup, lookup, lookup_eraseP h rest]

/-! ## Adding fields one after another -/

variable {r : Record V} {f : String × V}

theorem names_insertNew (r : Record V) (name : String) (value : V) :
    (r.insertNew name value).names =
      if r.contains name then r.names else r.names ++ [name] := by
  unfold insertNew
  split
  · rfl
  · simp [names]

theorem nodup_set (h : r.names.Nodup) (name : String) (v : V) : (r.set name v).names.Nodup :=
  names_set r name v ▸ nodup_add h

theorem nodup_insertNew (h : r.names.Nodup) (name : String) (v : V) :
    (r.insertNew name v).names.Nodup := names_insertNew r name v ▸ nodup_add h

theorem mem_of_replace? : ∀ {fields changed : List (String × V)},
    replace? name v fields = some changed → f ∈ changed → f ∈ fields ∨ f = (name, v)
  | [], _, h, _ => by cases h
  | (n, w) :: rest, _, h, hf => by
    rw [replace?] at h
    split at h
    · rename_i hn
      cases h
      rcases List.mem_cons.1 hf with rfl | hf
      · exact .inr (by rw [hn])
      · exact .inl (List.mem_cons_of_mem _ hf)
    · obtain ⟨kept, hk, rfl⟩ := Option.map_eq_some_iff.1 h
      rcases List.mem_cons.1 hf with rfl | hf
      · exact .inl List.mem_cons_self
      · exact (mem_of_replace? hk hf).imp_left (List.mem_cons_of_mem _)

theorem mem_set (h : f ∈ (r.set name v).fields) : f ∈ r.fields ∨ f = (name, v) := by
  unfold set at h
  split at h
  · exact .inl h
  · split at h
    · rename_i hr
      exact mem_of_replace? hr h
    · exact (List.mem_append.1 h).imp_right List.mem_singleton.1

theorem mem_insertNew (h : f ∈ (r.insertNew name v).fields) : f ∈ r.fields ∨ f = (name, v) := by
  unfold insertNew at h
  split at h
  · exact .inl h
  · exact (List.mem_append.1 h).imp_right List.mem_singleton.1

section

variable {add : Record V → String → V → Record V}

theorem mem_foldl_add (ha : ∀ (r : Record V) (name : String) (v : V) (f : String × V),
      f ∈ (add r name v).fields → f ∈ r.fields ∨ f = (name, v)) :
    ∀ (fields : List (String × V)) {r : Record V},
      f ∈ (fields.foldl (fun r f => add r f.1 f.2) r).fields → f ∈ r.fields ∨ f ∈ fields
  | [], _, h => .inl h
  | (name, v) :: rest, r, h => by
    rcases mem_foldl_add ha rest h with h | h
    · exact (ha r name v f h).imp_right fun he => List.mem_cons.2 (.inl he)
    · exact .inr (List.mem_cons_of_mem _ h)

variable (hn : ∀ (r : Record V) (name : String) (v : V),
  (add r name v).names = if r.contains name then r.names else r.names ++ [name])

include hn

theorem names_foldl_add (fields : List (String × V)) :
    (fields.foldl (fun r f => add r f.1 f.2) .empty).names = (fields.map Prod.fst).eraseDups := by
  induction fields using List.reverseRecOn with
  | nil => rfl
  | append_singleton fields f ih =>
    rw [List.foldl_concat, hn, List.map_append, List.map_singleton, eraseDups_concat, ih]
    refine if_congr ?_ rfl rfl
    rw [contains_iff, ih, List.mem_eraseDups]

theorem nodup_foldl_add (fields : List (String × V)) :
    (fields.foldl (fun r f => add r f.1 f.2) .empty).names.Nodup := by
  rw [names_foldl_add hn]
  exact nodup_eraseDups _

theorem mem_names_foldl_add (fields : List (String × V)) (name : String) :
    name ∈ (fields.foldl (fun r f => add r f.1 f.2) .empty).names ↔ ∃ f ∈ fields, f.1 = name := by
  rw [names_foldl_add hn, List.mem_eraseDups, List.mem_map]

end

theorem mem_ofFields {fields : List (String × V)} (h : f ∈ (ofFields fields).fields) :
    f ∈ fields :=
  (mem_foldl_add (fun _ _ _ _ => mem_insertNew) fields (r := .empty) h).resolve_left List.not_mem_nil

theorem names_ofFields (fields : List (String × V)) :
    (ofFields fields).names = (fields.map Prod.fst).eraseDups := names_foldl_add names_insertNew fields

theorem nodup_ofFields (fields : List (String × V)) : (ofFields fields).names.Nodup :=
  nodup_foldl_add names_insertNew fields

theorem mem_names_ofFields (fields : List (String × V)) (name : String) :
    name ∈ (ofFields fields).names ↔ ∃ f ∈ fields, f.1 = name :=
  mem_names_foldl_add names_insertNew fields name

theorem isEmpty_eq_false : r.isEmpty = false ↔ ∃ name, name ∈ r.names := by
  rw [isEmpty, List.isEmpty_eq_false_iff_exists_mem, names]
  simp only [List.mem_map]
  constructor
  · rintro ⟨f, hf⟩
    exact ⟨f.1, f, hf, rfl⟩
  · rintro ⟨-, f, hf, -⟩
    exact ⟨f, hf⟩

theorem isEmpty_ofFields (fields : List (String × V)) :
    (ofFields fields).isEmpty = false ↔ ∃ f, f ∈ fields := by
  simp only [isEmpty_eq_false, mem_names_ofFields]
  constructor
  · rintro ⟨-, f, hf, -⟩
    exact ⟨f, hf⟩
  · rintro ⟨f, hf⟩
    exact ⟨f.1, f, hf, rfl⟩

end Record

end GraphQuery
