import GraphQuery.Proofs.Execution.Answers
import GraphQuery.Proofs.Execution.CarryOver
import GraphQuery.Proofs.Json.Values
import GraphQuery.Proofs.Operation.GroupRecords
import GraphQuery.Proofs.Operation.Overlay
import GraphQuery.Proofs.Value.Edits
/-!
# Items that are mappings

An item is a mapping if its names are distinct; then everything that reads it finds the same under a
name, and what is written under a name is all that is found there (`Item.isMapping_iff`).  However
queries make items of field lists and of one another (`Item.Recipe`), one step keeps the names
distinct, but for a projection that names a field twice (`Item.Recipe.nodup_item?`).  So all items
along the way are mappings exactly if no projection does (`Item.Recipe.mappings_iff`).
-/

namespace GraphQuery

def Json.member? (name : String) : Json → Option Json
  | object members => Record.lookup name members
  | _ => none

namespace Item

/-! ## Readers of an item -/

/-- Whether all that is read of an item under a name is one value, or nothing. -/
structure Shows (item : Item) (name : String) (v : Option Value) : Prop where
  get? : item.get? name = v
  fields : item.fields.filter (·.1 = name) = v.toList.map fun w => (name, w)
  json : item.toJson.member? name = v.map Value.toJson
  pruned : ((Value.record item).prune.asRecord?).bind (·.get? name) =
    (v.map Value.prune).filter (!·.isVoid)

/-- Whether an item holds one value under each of its names, whoever reads it and whatever is edited. -/
structure IsMapping (item : Item) : Prop where
  distinct : item.names.Nodup
  read : ∀ name, item.Shows name (item.get? name)
  /-- What is written, and an identifier is written once, is read until it is written again. -/
  written : ∀ name v edits, ¬(name = idField ∧ item.hasId = true) →
    (∀ e ∈ edits, name ≠ e.name) →
      Shows (Record.Edit.run Record.edit edits (item.set name v)).2 name (some v)
  edited : ∀ edits name, Shows (Record.Edit.run Record.edit edits item).2 name
    ((Record.Edit.run OrderedMap.editOnce edits (.ofFields item.fields)).2.value? name)

variable {item : Item}

theorem shows_get? (h : item.names.Nodup) (name : String) : item.Shows name (item.get? name) := by
  obtain ⟨fields⟩ := item
  have hmembers : ((fields.map fun f => (f.1, f.2.toJson)).map Prod.fst).Nodup := by
    rw [List.map_map]
    exact h
  refine ⟨rfl, Record.filter_of_nodup h, ?_, ?_⟩
  · rw [toJson, Value.toJson_record]
    show Record.lookup name (Json.sortedMembers _) = _
    -- the last member of a name is the only one
    rw [Json.lookup_sortedMembers, Record.get?, ← Record.lookup_mapValues]
    refine Option.ext fun j => ?_
    rw [Record.lookup_eq_some_iff (by rwa [List.map_reverse, List.nodup_reverse]),
      Record.lookup_eq_some_iff hmembers, List.mem_reverse]
  · refine Option.ext fun w => ?_
    show (Record.ofFields (pruneFields fields)).get? name = some w ↔ _
    rw [Record.get?_ofFields, Record.lookup_eq_some_iff (nodup_pruneFields h), mem_pruneFields,
      Option.filter_eq_some_iff, Option.map_eq_some_iff, Bool.not_eq_true']
    constructor
    · rintro ⟨⟨n, v⟩, hf, hvoid, he⟩
      cases he
      exact ⟨⟨v, Record.lookup_of_mem h hf, rfl⟩, hvoid⟩
    · rintro ⟨⟨v, hv, rfl⟩, hvoid⟩
      exact ⟨(name, v), Record.mem_of_lookup hv, hvoid, rfl⟩

/-- **An item is a mapping exactly if its names are distinct.** -/
theorem isMapping_iff : item.IsMapping ↔ item.names.Nodup := by
  refine ⟨IsMapping.distinct, fun h => ⟨h, shows_get? h, fun name v edits hid hedits => ?_, ?_⟩⟩
  · have hget : (Record.Edit.run Record.edit edits (item.set name v)).2.get? name = some v := by
      rw [Record.get?_run hedits, Record.get?_set item name v hid, if_pos rfl]
    have hset := Record.Refines.of_nodup (Record.nodup_set h name v)
    exact hget ▸ shows_get? (hset.run edits).2.nodup name
  · intro edits name
    have hrun := ((Record.Refines.of_nodup h).run edits).2
    exact hrun.get? name ▸ shows_get? hrun.nodup name

/-! ## Items made of items -/

/-- How an item is made of field lists, by the operations that queries use. -/
inductive Recipe where
  | ofFields (fields : List (String × Value))
  | edit (e : Record.Edit Value) (r : Recipe)
  | project (names : List String) (r : Recipe)
  | bind (bindings : List Binding) (r : Recipe)
  | group (fields : List String) (members : List Item) (first : Recipe)
  | merge (left right : Recipe)
  | fill (object original : Recipe)

namespace Recipe

/-- The item that is made, unless items that cannot be merged come together on the way. -/
def item? : Recipe → Option Item
  | ofFields fields => some (Record.ofFields fields)
  | edit e r => r.item?.map fun item => (item.edit e).2
  | project names r => r.item?.map (·.project names)
  | bind bindings r => r.item?.map (Item.bind bindings)
  | group fields members first => first.item?.map fun item => ofGroup fields item members
  | merge left right =>
    left.item?.bind fun l => right.item?.bind fun r => (Item.merge l r).toOption
  | fill object original =>
    object.item?.bind fun o => original.item?.map fun item => Objects.fill o item

def sources : Recipe → List Recipe
  | ofFields _ => []
  | edit _ r => [r]
  | project _ r => [r]
  | bind _ r => [r]
  | group _ _ first => [first]
  | merge left right => [left, right]
  | fill object original => [object, original]

inductive Part : Recipe → Recipe → Prop where
  | self (r : Recipe) : Part r r
  | inside {r s part : Recipe} (hs : s ∈ r.sources) (h : Part part s) : Part part r

theorem induction {motive : Recipe → Prop} (h : ∀ r, (∀ s ∈ r.sources, motive s) → motive r)
    (r : Recipe) : motive r := by
  induction r with
  | ofFields fields => exact h _ (List.forall_mem_nil _)
  | edit e r ih => exact h _ (List.forall_mem_singleton.2 ih)
  | project names r ih => exact h _ (List.forall_mem_singleton.2 ih)
  | bind bindings r ih => exact h _ (List.forall_mem_singleton.2 ih)
  | group fields members first ih => exact h _ (List.forall_mem_singleton.2 ih)
  | merge left right ihl ihr =>
    exact h _ (List.forall_mem_cons.2 ⟨ihl, List.forall_mem_singleton.2 ihr⟩)
  | fill object original iho ihi =>
    exact h _ (List.forall_mem_cons.2 ⟨iho, List.forall_mem_singleton.2 ihi⟩)

/-! ## What one step keeps -/

theorem nodup_bind (h : item.names.Nodup) (bindings : List Binding) :
    (Item.bind bindings item).names.Nodup := by
  refine List.foldlRecOn (motive := fun r : Item => r.names.Nodup) bindings _ h fun r hr b _ => ?_
  cases r.get? b.source with
  | none => exact hr
  | some v => exact Record.nodup_set hr b.name v

theorem nodup_fill (h : item.names.Nodup) (original : Item) :
    (Objects.fill item original).names.Nodup :=
  List.foldlRecOn (motive := fun r : Item => r.names.Nodup) original.fields _ h
    fun _ hr f _ => Record.nodup_insertNew hr f.1 f.2

theorem nodup_mergeFields : ∀ (fields : List (String × Value)) {left merged : Item},
    left.names.Nodup → mergeFields left fields = .ok merged → merged.names.Nodup
  | [], _, _, h, hm => by
    cases hm
    exact h
  | (name, value) :: rest, left, merged, h, hm => by
    rw [mergeFields] at hm
    split at hm
    · exact nodup_mergeFields rest h hm
    · split at hm
      · exact nodup_mergeFields rest (Record.nodup_set h name value) hm
      · split at hm
        · exact nodup_mergeFields rest (Record.nodup_set h name _) hm
        · cases hm

/-- **A step makes an item with distinct names of such items**, but for a projection that names a
field twice. -/
theorem nodup_item? {r : Recipe} (h : r.item? = some item)
    (hs : ∀ s ∈ r.sources, ∀ x, s.item? = some x → x.names.Nodup)
    (hp : ∀ names s, r = .project names s → ∀ x, s.item? = some x →
      (names.filter x.contains).Nodup) : item.names.Nodup := by
  cases r with
  | ofFields fields =>
    cases h
    exact Record.nodup_ofFields fields
  | edit e r =>
    obtain ⟨x, hx, rfl⟩ := Option.map_eq_some_iff.1 h
    exact Record.nodup_edit (hs r List.mem_cons_self x hx) e
  | project names r =>
    obtain ⟨x, hx, rfl⟩ := Option.map_eq_some_iff.1 h
    rw [Record.names_project]
    exact hp names r rfl x hx
  | bind bindings r =>
    obtain ⟨x, hx, rfl⟩ := Option.map_eq_some_iff.1 h
    exact nodup_bind (hs r List.mem_cons_self x hx) bindings
  | group fields members first =>
    obtain ⟨x, -, rfl⟩ := Option.map_eq_some_iff.1 h
    exact nodup_names_ofGroup fields x members
  | merge left right =>
    obtain ⟨l, hl, h⟩ := Option.bind_eq_some_iff.1 h
    obtain ⟨x, -, h⟩ := Option.bind_eq_some_iff.1 h
    exact nodup_mergeFields x.fields (hs left List.mem_cons_self l hl)
      (Except.toOption_eq_some.1 h)
  | fill object original =>
    obtain ⟨o, ho, h⟩ := Option.bind_eq_some_iff.1 h
    obtain ⟨x, -, rfl⟩ := Option.map_eq_some_iff.1 h
    exact nodup_fill (hs object List.mem_cons_self o ho) x

/-! ## All that is made on the way -/

theorem nodup_of_part (r : Recipe) (hp : ∀ names s, Part (.project names s) r →
      ∀ x, s.item? = some x → (names.filter x.contains).Nodup) :
    ∀ {s : Recipe}, Part s r → ∀ x, s.item? = some x → x.names.Nodup := by
  induction r using induction with
  | h r ih =>
    have hsources : ∀ s ∈ r.sources, ∀ {t : Recipe}, Part t s → ∀ x, t.item? = some x →
        x.names.Nodup := fun s hs =>
      ih s hs fun names t ht => hp names t (.inside hs ht)
    intro s hs x hx
    cases hs with
    | self =>
      refine nodup_item? hx (fun s hs => hsources s hs (.self s)) fun names s hr => ?_
      subst hr
      exact hp names s (.self _)
    | inside hs ht => exact hsources _ hs ht x hx

/--
**Items stay mappings unless a projection names a field twice.**  However an item is made of field
lists and other items, all items on the way are mappings, in which every reader finds the same and
what was written last, exactly if no projection on the way names a field more than once that the
item projected has.
-/
theorem mappings_iff (r : Recipe) :
    (∀ s, Part s r → ∀ x, s.item? = some x → x.IsMapping) ↔
      ∀ names s, Part (.project names s) r → ∀ x, s.item? = some x →
        (names.filter x.contains).Nodup := by
  constructor
  · intro h names s hs x hx
    have hm := h (.project names s) hs (x.project names) (by rw [item?, hx]; rfl)
    exact Record.names_project x names ▸ hm.distinct
  · intro h s hs x hx
    exact Item.isMapping_iff.2 (nodup_of_part r h hs x hx)

/-- What is written to a field that was projected twice is found by one reader and not by another. -/
theorem projected_twice :
    let r : Recipe := .edit (.set "a" (.int 2)) (.project ["a", "a"] (.ofFields [("a", .int 1)]))
    ∃ x, r.item? = some x ∧ x.names = ["a", "a"] ∧ x.get? "a" = some (.int 2) ∧
      x.toJson.member? "a" = some (.int 1) := ⟨_, rfl, rfl, rfl, rfl⟩

end Recipe

end Item

end GraphQuery
