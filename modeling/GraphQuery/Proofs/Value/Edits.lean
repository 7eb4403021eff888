import GraphQuery.Proofs.Value.Fields
import Mathlib.Logic.Function.Basic
/-!
# Items that are edited

A record is a plain ordered map (`OrderedMap`: the names that are there, in the order in which they
came, and the value of each) with one rule more: an identifier that is there is neither changed nor
removed nor handed out for writing (`OrderedMap.editOnce`).  The two are run side by side.  One edit
keeps them in step and answers the same (`Record.Refines.edit`), and so does a run of any length
(`Record.run_edit`).
-/

namespace GraphQuery

namespace Record

inductive Edit (V : Type) where
  | set (name : String) (value : V)
  | remove (name : String)
  | write (name : String) (change : V → V)

namespace Edit

variable {V S : Type}

def name : Edit V → String
  | set name _ => name
  | remove name => name
  | write name _ => name

def run (step : Edit V → S → Option V × S) : List (Edit V) → S → List (Option V) × S
  | [], s => ([], s)
  | e :: rest, s =>
    let (answer, s) := step e s
    let (answers, s) := run step rest s
    (answer :: answers, s)

end Edit

end Record

/-- Names in the order in which they came, each once, and the value of each. -/
@[ext]
structure OrderedMap (V : Type) where
  names : List String
  value? : String → Option V
  distinct : names.Nodup
  mem_names : ∀ name, name ∈ names ↔ (value? name).isSome = true

namespace OrderedMap

variable {V : Type}

def fields (m : OrderedMap V) : List (String × V) :=
  m.names.filterMap fun name => (m.value? name).map fun v => (name, v)

/-- The map of a field list: of the values under one name it keeps the first. -/
def ofFields (fields : List (String × V)) : OrderedMap V where
  names := (fields.map Prod.fst).eraseDups
  value? name := (fields.find? (·.1 = name)).map Prod.snd
  distinct := Record.nodup_eraseDups _
  mem_names name := by simp

/-- A name that is there keeps its place, and a new one comes at the end. -/
def set (m : OrderedMap V) (name : String) (value : V) : OrderedMap V where
  names := if name ∈ m.names then m.names else m.names ++ [name]
  value? := Function.update m.value? name (some value)
  distinct := by
    split
    next => exact m.distinct
    next hn => exact List.concat_eq_append ▸ m.distinct.concat hn
  mem_names other := by
    by_cases ho : other = name
    · subst ho
      by_cases hm : other ∈ m.names <;> simp [hm]
    · rw [Function.update_of_ne ho, ← m.mem_names]
      by_cases hm : name ∈ m.names <;> simp [hm, ho]

def erase (m : OrderedMap V) (name : String) : OrderedMap V where
  names := m.names.erase name
  value? := Function.update m.value? name none
  distinct := m.distinct.erase name
  mem_names other := by
    rw [m.distinct.mem_erase_iff]
    by_cases ho : other = name
    · simp [ho]
    · rw [Function.update_of_ne ho, ← m.mem_names, and_iff_right ho]

def modify (m : OrderedMap V) (name : String) (change : V → V) : OrderedMap V where
  names := m.names
  value? := Function.update m.value? name ((m.value? name).map change)
  distinct := m.distinct
  mem_names other := by
    by_cases ho : other = name
    · rw [ho, Function.update_self, Option.isSome_map, m.mem_names]
    · rw [Function.update_of_ne ho, m.mem_names]

theorem erase_of_none {m : OrderedMap V} {name : String} (h : m.value? name = none) :
    m.erase name = m := by
  have hn : name ∉ m.names := by rw [m.mem_names, h]; exact Bool.false_ne_true
  exact OrderedMap.ext (List.erase_of_not_mem hn) (Function.update_eq_self_iff.2 h.symm)

theorem modify_of_none {m : OrderedMap V} {name : String} {change : V → V}
    (h : m.value? name = none) : m.modify name change = m :=
  OrderedMap.ext rfl (Function.update_eq_self_iff.2 (by rw [h]; rfl))

def edit : Record.Edit V → OrderedMap V → Option V × OrderedMap V
  | .set name value, m => (none, m.set name value)
  | .remove name, m => (m.value? name, m.erase name)
  | .write name change, m => (m.value? name, m.modify name change)

/-- What an edit does when an identifier, once it is there, is out of reach. -/
def editOnce (e : Record.Edit V) (m : OrderedMap V) : Option V × OrderedMap V :=
  if e.name = idField ∧ idField ∈ m.names then (none, m) else m.edit e

end OrderedMap

namespace Record

variable {V : Type}

def edit : Edit V → Record V → Option V × Record V
  | .set name value, r => (none, r.set name value)
  | .remove name, r =>
    match r.remove? name with
    | some (v, kept) => (some v, kept)
    | none => (none, r)
  | .write name change, r =>
    match r.writable? name with
    | some v => (some v, (r.assign? name (change v)).getD r)
    | none => (none, r)

structure Refines (r : Record V) (m : OrderedMap V) : Prop where
  names : r.names = m.names
  get? : ∀ name, r.get? name = m.value? name

variable {r : Record V} {m : OrderedMap V}

/-! ## What is read of a record that is in step -/

theorem project_names (h : r.names.Nodup) : r.project r.names = r := by
  unfold project names
  rw [List.filterMap_map]
  have hf : ∀ f ∈ r.fields, (r.get? f.1).map (fun v => (f.1, v)) = some f := fun f hf => by
    rw [get?, lookup_of_mem h hf, Option.map_some]
  exact congrArg _ ((List.filterMap_congr hf).trans List.filterMap_some)

namespace Refines

theorem nodup (h : r.Refines m) : r.names.Nodup := h.names ▸ m.distinct

theorem contains_iff (h : r.Refines m) (name : String) : r.contains name = true ↔ name ∈ m.names := by
  rw [Record.contains_iff, h.names]

theorem fields (h : r.Refines m) : r.fields = m.fields := by
  rw [← project_names h.nodup, project, OrderedMap.fields, h.names]
  simp only [h.get?]

theorem size (h : r.Refines m) : r.size = m.names.length := by
  rw [← h.names, Record.names, List.length_map]
  rfl

theorem ofFields (fields : List (String × V)) :
    (Record.ofFields fields).Refines (OrderedMap.ofFields fields) := by
  refine ⟨names_ofFields fields, fun name => ?_⟩
  rw [get?_ofFields]
  show lookup name fields = (fields.find? (·.1 = name)).map Prod.snd
  induction fields with
  | nil => rfl
  | cons f rest ih =>
    rw [lookup, List.find?_cons, ih]
    by_cases hn : f.1 = name <;> simp [hn]

theorem of_nodup (h : r.names.Nodup) : r.Refines (.ofFields r.fields) := by
  have hr := Refines.ofFields r.fields
  rwa [ofFields_of_nodup h] at hr

end Refines

/-! ## One edit -/

theorem edit_remove_of_none {name : String} (h : r.get? name = none) :
    r.edit (.remove name) = (none, r) := by
  rw [edit]
  by_cases hn : name = idField
  · rw [remove?, if_pos hn]
  · rw [remove?_eq r hn, h]
    rfl

theorem edit_remove {name : String} {v : V} (hn : name ≠ idField) (h : r.get? name = some v) :
    r.edit (.remove name) = (some v, ⟨r.fields.eraseP (·.1 = name)⟩) := by
  rw [edit, remove?_eq r hn, h]
  rfl

theorem edit_write_of_none {name : String} (h : r.get? name = none) (change : V → V) :
    r.edit (.write name change) = (none, r) := by
  rw [edit, writable?, h, ite_self]

theorem edit_write {r' : Record V} {name : String} {v : V} {change : V → V}
    (hw : r.writable? name = some v) (ha : r.assign? name (change v) = some r') :
    r.edit (.write name change) = (some v, r') := by
  rw [edit, hw]
  simp only [ha, Option.getD_some]

theorem edit_identifier {e : Edit V} (he : e.name = idField) (h : r.hasId = true) :
    r.edit e = (none, r) := by
  cases e with
  | set name value =>
    have he : name = idField := he
    rw [edit, set, if_pos ⟨he, h⟩]
  | remove name =>
    have he : name = idField := he
    rw [edit, remove?, if_pos he]
  | write name change =>
    have he : name = idField := he
    rw [edit, writable?, if_pos he]

theorem edit_cases {motive : Record V → Prop} (r : Record V) (e : Edit V) (same : motive r)
    (set : ∀ value, motive (r.set e.name value))
    (erase : e.name ≠ idField → motive ⟨r.fields.eraseP (·.1 = e.name)⟩)
    (assign : ∀ value r', r.assign? e.name value = some r' → motive r') :
    motive (r.edit e).2 := by
  cases e with
  | set name value => exact set value
  | remove name =>
    cases hg : r.get? name with
    | none => exact edit_remove_of_none hg ▸ same
    | some v =>
      by_cases hn : name = idField
      · rw [edit, remove?, if_pos hn]
        exact same
      · rw [edit_remove hn hg]
        exact erase hn
  | write name change =>
    cases hw : r.writable? name with
    | none =>
      rw [edit, hw]
      exact same
    | some v =>
      obtain ⟨r', ha⟩ := exists_assign? hw (change v)
      rw [edit_write hw ha]
      exact assign (change v) r' ha

theorem id?_edit (e : Edit V) (h : r.hasId = true) : (r.edit e).2.id? = r.id? :=
  edit_cases (motive := fun r' => r'.id? = r.id?) r e rfl (fun value => id?_set r e.name value h)
    (fun hn => lookup_eraseP (Ne.symm hn) r.fields) fun _ _ ha => id?_of_assign? ha

theorem get?_edit (e : Edit V) {other : String} (ho : other ≠ e.name) :
    (r.edit e).2.get? other = r.get? other := by
  refine edit_cases (motive := fun r' => r'.get? other = r.get? other) r e rfl (fun value => ?_)
    (fun _ => lookup_eraseP ho r.fields) fun value r' ha => ?_
  · by_cases hid : e.name = idField ∧ r.hasId = true
    · rw [set, if_pos hid]
    · rw [get?_set r e.name value hid, if_neg ho]
  · rw [get?_of_assign? ha, if_neg ho]

/-! ## An edit and its counterpart -/

namespace Refines

theorem set (h : r.Refines m) {name : String} (value : V)
    (hid : ¬(name = idField ∧ idField ∈ m.names)) : (r.set name value).Refines (m.set name value) := by
  rw [← h.contains_iff] at hid
  refine ⟨?_, fun other => ?_⟩
  · rw [names_set, h.names]
    exact if_congr (h.contains_iff name) rfl rfl
  · rw [get?_set r name value hid, h.get?]
    exact (Function.update_apply ..).symm

theorem erase (h : r.Refines m) (name : String) :
    (⟨r.fields.eraseP (·.1 = name)⟩ : Record V).Refines (m.erase name) := by
  have hnames : (r.fields.eraseP (·.1 = name)).map Prod.fst = m.names.erase name := by
    rw [map_fst_eraseP, ← h.names]
    rfl
  refine ⟨hnames, fun other => ?_⟩
  show lookup other (r.fields.eraseP (·.1 = name)) = Function.update m.value? name none other
  by_cases ho : other = name
  · subst ho
    rw [Function.update_self, ← Option.not_isSome_iff_eq_none, lookup_isSome_iff, hnames]
    exact m.distinct.not_mem_erase
  · rw [Function.update_of_ne ho, lookup_eraseP ho]
    exact h.get? other

theorem assign (h : r.Refines m) {r' : Record V} {name : String} {v : V} {change : V → V}
    (hv : m.value? name = some v) (ha : r.assign? name (change v) = some r') :
    r'.Refines (m.modify name change) := by
  refine ⟨(names_of_assign? ha).trans h.names, fun other => ?_⟩
  show _ = Function.update m.value? name ((m.value? name).map change) other
  rw [get?_of_assign? ha, h.get?, hv, Option.map_some]
  exact (Function.update_apply ..).symm

/-- **One edit keeps a record in step with the ordered map**, and both answer the same. -/
theorem edit (h : r.Refines m) (e : Edit V) :
    (r.edit e).1 = (m.editOnce e).1 ∧ (r.edit e).2.Refines (m.editOnce e).2 := by
  unfold OrderedMap.editOnce
  split
  next hid =>
    rw [edit_identifier hid.1 ((h.contains_iff idField).2 hid.2)]
    exact ⟨rfl, h⟩
  next hid =>
    cases e with
    | set name value => exact ⟨rfl, h.set value hid⟩
    | remove name =>
      rw [OrderedMap.edit]
      cases hv : m.value? name with
      | none =>
        rw [edit_remove_of_none ((h.get? name).trans hv), OrderedMap.erase_of_none hv]
        exact ⟨rfl, h⟩
      | some v =>
        have hn : name ≠ idField := fun hn => hid ⟨hn, hn ▸ (m.mem_names name).2 (hv ▸ rfl)⟩
        rw [edit_remove hn ((h.get? name).trans hv)]
        exact ⟨rfl, h.erase name⟩
    | write name change =>
      rw [OrderedMap.edit]
      cases hv : m.value? name with
      | none =>
        rw [edit_write_of_none ((h.get? name).trans hv), OrderedMap.modify_of_none hv]
        exact ⟨rfl, h⟩
      | some v =>
        have hn : name ≠ idField := fun hn => hid ⟨hn, hn ▸ (m.mem_names name).2 (hv ▸ rfl)⟩
        have hw : r.writable? name = some v := writable?_eq_some.2 ⟨hn, (h.get? name).trans hv⟩
        obtain ⟨r', ha⟩ := exists_assign? hw (change v)
        rw [edit_write hw ha]
        exact ⟨rfl, h.assign hv ha⟩

/-! ## A run of edits -/

/-- **Edits keep a record in step with the ordered map**, and both answer the same all along. -/
theorem run : ∀ (edits : List (Edit V)) {r : Record V} {m : OrderedMap V}, r.Refines m →
    (Edit.run Record.edit edits r).1 = (Edit.run OrderedMap.editOnce edits m).1 ∧
      (Edit.run Record.edit edits r).2.Refines (Edit.run OrderedMap.editOnce edits m).2
  | [], _, _, h => ⟨rfl, h⟩
  | e :: rest, _, _, h => by
    obtain ⟨ha, hs⟩ := h.edit e
    obtain ⟨has, hss⟩ := run rest hs
    exact ⟨congrArg₂ List.cons ha has, hss⟩

end Refines

theorem nodup_edit (h : r.names.Nodup) (e : Edit V) : (r.edit e).2.names.Nodup :=
  ((Refines.of_nodup h).edit e).2.nodup

theorem get?_run {other : String} : ∀ {edits : List (Edit V)} {r : Record V},
    (∀ e ∈ edits, other ≠ e.name) → (Edit.run edit edits r).2.get? other = r.get? other
  | [], _, _ => rfl
  | e :: rest, r, h => by
    obtain ⟨he, hrest⟩ := List.forall_mem_cons.1 h
    have hlast : (Edit.run edit rest (r.edit e).2).2.get? other = (r.edit e).2.get? other :=
      get?_run hrest
    exact hlast.trans (get?_edit e he)

/-- **An identifier that is there stays**, whatever edits follow. -/
theorem id?_run : ∀ (edits : List (Edit V)) {r : Record V}, r.hasId = true →
    (Edit.run edit edits r).2.id? = r.id?
  | [], _, _ => rfl
  | e :: rest, r, h => by
    have he := id?_edit e h
    have hid : (r.edit e).2.hasId = true := (congrArg Option.isSome he).trans h
    exact (id?_run rest hid).trans he

/--
**An item is an ordered map whose identifier is written once.**  After any edits of an item made of
any fields, its names are distinct, it has the fields, the size and the values of the ordered map
that was edited alike, and all edits answered the same.  What may be overwritten never is the
identifier, and once there is one, no further edits change it.
-/
theorem run_edit (fields : List (String × V)) (edits : List (Edit V)) :
    let (answers, r) := Edit.run edit edits (ofFields fields)
    let (expected, m) := Edit.run OrderedMap.editOnce edits (.ofFields fields)
    answers = expected ∧ r.names.Nodup ∧ r.fields = m.fields ∧ r.size = m.names.length ∧
      (∀ name, r.get? name = m.value? name ∧ (r.contains name = true ↔ name ∈ m.names)) ∧
      r.writable? idField = none ∧ r.remove? idField = none ∧
      ∀ more, r.hasId = true → (Edit.run edit more r).2.id? = r.id? := by
  obtain ⟨hanswers, h⟩ := Refines.run edits (Refines.ofFields fields)
  exact ⟨hanswers, h.nodup, h.fields, h.size, fun name => ⟨h.get? name, h.contains_iff name⟩,
    if_pos rfl, if_pos rfl, fun more hid => id?_run more hid⟩

/-- A field that is removed and set anew, and an identifier that is set late and then twice more. -/
theorem run_edit_late :
    let edits : List (Edit Value) := [.remove "a", .set idField (.int 7), .set "a" (.int 4)]
    let r := (Edit.run edit edits (ofFields [("a", .int 1), ("b", .int 2), ("a", .int 3)])).2
    r.fields = [("b", .int 2), (idField, .int 7), ("a", .int 4)] ∧ r.hasId = true ∧
      (Edit.run edit [.set idField (.int 8), .remove idField, .set idField (.int 9)] r).2.id? = r.id? :=
  ⟨rfl, rfl, (run_edit _ _).2.2.2.2.2.2.2 _ rfl⟩

end Record

end GraphQuery
