import GraphQuery.Proofs.Operation.Grouping
import GraphQuery.Proofs.Value.Fields
/-!
# The records of groups

A grouped flow hands out one record for each maximal run of items that agree on the fields named.  The
record of a group holds the items of the group (`Item.members`) and, beside them, the fields named that
these items have (`Item.IsGroup`).  No item is lost, and neighbouring groups differ
(`Transform.groupBy_maximal_runs`).
-/

namespace GraphQuery

namespace Item

def members (record : Item) : List Item :=
  (((record.get? groupField).bind Value.asList?).getD []).filterMap Value.asRecord?

def heading (record : Item) : List (String × Value) := record.fields.filter (·.1 ≠ groupField)

/-- The fields that head a group: each where it is first mentioned, but not the one with the items. -/
def headed (fields : List String) : List String := fields.eraseDups.filter (· ≠ groupField)

/-- Whether a record is that of a group of items that agree on some fields. -/
structure IsGroup (fields : List String) (record : Item) : Prop where
  items : record.get? groupField = some (.list (record.members.map .record))
  nonempty : record.members ≠ []
  distinct : record.names.Nodup
  agree : ∀ a ∈ record.members, ∀ b ∈ record.members, ∀ field ∈ fields,
    (a.get? field == b.get? field) = true
  /-- The fields beside the items are those of every item, in the order of their first mention. -/
  names : ∀ a ∈ record.members, record.heading.map Prod.fst = (headed fields).filter a.contains
  values : ∀ a ∈ record.members, ∀ f ∈ record.heading, (a.get? f.1 == some f.2) = true
  /-- Where equal values are not identical, the record takes that of the first item. -/
  first : ∀ a ∈ record.members.head?, record.heading = (a.project (headed fields)).fields

/-! ## Agreement -/

variable {fields : List String} {a b c : Item}

theorem agreeOn_iff_get? :
    agreeOn fields a b = true ↔ ∀ field ∈ fields, (a.get? field == b.get? field) = true := by
  rw [agreeOn, List.all_eq_true]
  refine forall₂_congr fun field _ => ?_
  rw [beq_get?_iff, beq_get?_iff, eq_comm]

theorem agreeOn_eq_false_iff :
    agreeOn fields a b = false ↔ ∃ field ∈ fields, (a.get? field == b.get? field) = false := by
  rw [← Bool.not_eq_true, agreeOn_iff_get?]
  simp only [not_forall, exists_prop, Bool.not_eq_true]

theorem agreeOn_of_common (ha : agreeOn fields c a = true) (hb : agreeOn fields c b = true) :
    agreeOn fields a b = true :=
  agreeOn_iff.2 ((agreeOn_iff.1 ha).symm.trans (agreeOn_iff.1 hb))

theorem contains_of_agreeOn (h : agreeOn fields a b = true) {field : String} (hf : field ∈ fields) :
    a.contains field = b.contains field := by
  have hv := congrArg Option.isSome (beq_get?_iff.1 (agreeOn_iff_get?.1 h field hf))
  rw [Option.isSome_map, Option.isSome_map] at hv
  exact hv.symm

/-! ## The record of a group -/

theorem foldl_copy (first : Item) (fields : List String) :
    fields.foldl (fun r field =>
      match first.get? field with
      | some v => r.set field v
      | none => r) (Record.empty : Item) = first.project fields.eraseDups := by
  induction fields using List.reverseRecOn with
  | nil => rfl
  | append_singleton fields field ih =>
    rw [List.foldl_append, ih, List.foldl_cons, List.foldl_nil, Record.eraseDups_concat]
    have hget := Record.get?_project first fields.eraseDups field
    split
    next v hv =>
      split
      next hf =>
        rw [if_pos (List.mem_eraseDups.2 hf), hv] at hget
        exact Record.set_of_get? hget
      next hf =>
        have hnew : field ∉ (first.project fields.eraseDups).names := fun hm => by
          rw [Record.names_project] at hm
          exact hf (List.mem_eraseDups.1 (List.mem_filter.1 hm).1)
        rw [Record.set_of_new hnew]
        simp [Record.project, hv]
    next hv =>
      split
      next => rfl
      next => simp [Record.project, hv]

/-- **The record of a group is a projection to which the items are added.** -/
theorem ofGroup_eq (fields : List String) (first : Item) (group : List Item) :
    ofGroup fields first group =
      (first.project fields.eraseDups).set groupField (.list (group.map .record)) :=
  congrArg (fun r : Item => r.set groupField (.list (group.map .record))) (foldl_copy first fields)

theorem get?_ofGroup (fields : List String) (first : Item) (group : List Item) :
    (ofGroup fields first group).get? groupField = some (.list (group.map .record)) := by
  rw [ofGroup_eq, Record.get?_set _ _ _ fun h => absurd h.1 (by decide), if_pos rfl]

theorem members_ofGroup (fields : List String) (first : Item) (group : List Item) :
    (ofGroup fields first group).members = group := by
  rw [members, get?_ofGroup]
  show (group.map Value.record).filterMap Value.asRecord? = group
  rw [List.filterMap_map]
  exact List.filterMap_some

theorem nodup_names_ofGroup (fields : List String) (first : Item) (group : List Item) :
    (ofGroup fields first group).names.Nodup := by
  rw [ofGroup_eq]
  refine Record.nodup_set ?_ _ _
  rw [Record.names_project]
  exact (Record.nodup_eraseDups fields).filter _

theorem heading_ofGroup (fields : List String) (first : Item) (group : List Item) :
    (ofGroup fields first group).heading = (first.project (headed fields)).fields := by
  rw [heading, ofGroup_eq, Record.filter_set, headed, Record.project, Record.project,
    List.filter_filterMap, List.filterMap_filter]
  refine List.filterMap_congr fun field _ => ?_
  cases first.get? field <;> simp [Option.filter_some]

theorem isGroup_ofGroup {first : Item} {group : List Item} (hfirst : group.head? = some first)
    (h : ∀ a ∈ group, agreeOn fields first a = true) : (ofGroup fields first group).IsGroup fields := by
  have hm : ∀ {field : String}, field ∈ headed fields → field ∈ fields := fun hf =>
    List.mem_eraseDups.1 (List.mem_filter.1 hf).1
  constructor
  case items => rw [get?_ofGroup, members_ofGroup]
  case distinct => exact nodup_names_ofGroup fields first group
  all_goals rw [members_ofGroup]
  case nonempty =>
    rintro rfl
    cases hfirst
  case agree =>
    exact fun a ha b hb => agreeOn_iff_get?.1 (agreeOn_of_common (h a ha) (h b hb))
  case names =>
    intro a ha
    rw [heading_ofGroup]
    refine (Record.names_project first (headed fields)).trans (List.filter_congr fun field hf => ?_)
    exact contains_of_agreeOn (h a ha) (hm hf)
  case values =>
    intro a ha f hf
    rw [heading_ofGroup] at hf
    obtain ⟨field, hfield, he⟩ := List.mem_filterMap.1 hf
    obtain ⟨v, hv, rfl⟩ := Option.map_eq_some_iff.1 he
    have hval := agreeOn_iff_get?.1 (h a ha) field (hm hfield)
    rw [hv] at hval
    exact beq_get?_iff.2 (beq_get?_iff.1 hval).symm
  case first =>
    intro a ha
    rw [hfirst] at ha
    cases ha
    exact heading_ofGroup fields first group

end Item

namespace Transform

/--
**Grouping splits a flow into its maximal runs.**  Items of one group agree on every field named,
which is to say that they have the same value or both none, and those of neighbouring groups differ on
one.  The groups hold the items of the flow, each once and in their order.
-/
theorem groupBy_maximal_runs (fields : List String) (f : Flow Item) :
    let found := ((groupBy fields).rewrite f).toList
    found.flatMap Item.members = f.toList ∧
      (∀ record ∈ found, record.IsGroup fields) ∧
      found.IsChain fun r s => ∀ a ∈ r.members, ∀ b ∈ s.members,
        ∃ field ∈ fields, (a.get? field == b.get? field) = false := by
  intro found
  have hfound : found = (groups fields f).map fun g => Item.ofGroup fields g.1 g.2 :=
    toList_groupBy fields f
  have hagree := agreeOn_of_mem_groups fields f
  rw [hfound]
  refine ⟨?_, fun record hr => ?_, ?_⟩
  · simp only [List.flatMap_map, Item.members_ofGroup]
    exact flatMap_groups fields f
  · obtain ⟨g, hg, rfl⟩ := List.mem_map.1 hr
    exact Item.isGroup_ofGroup (Flow.head?_of_mem_runs g hg) (hagree g hg)
  · rw [List.isChain_map]
    have hchain : (groups fields f).IsChain fun g h => Item.agreeOn fields g.1 h.1 = false :=
      Flow.isChain_runs f
    refine hchain.imp_of_mem_imp fun g h hg hh hne a ha b hb => ?_
    rw [Item.members_ofGroup] at ha hb
    rw [← Bool.not_eq_true, Item.agreeOn_iff] at hne
    rw [← Item.agreeOn_eq_false_iff, ← Bool.not_eq_true, Item.agreeOn_iff]
    intro hab
    have hga := Item.agreeOn_iff.1 (hagree g hg a ha)
    have hhb := Item.agreeOn_iff.1 (hagree h hh b hb)
    exact hne (hga.trans (hab.trans hhb.symm))

/-- A name that is repeated, a null and a missing value, the identifier and the items' own field. -/
example :
    let x : Item := ⟨[(":group", .int 1), (":id", .string "x"), ("a", .null)]⟩
    let y : Item := ⟨[(":id", .string "x"), ("b", .int 2)]⟩
    ((groupBy ["b", ":group", "a", "b", ":id"]).rewrite (.ofList [x, x, y])).toList =
      [⟨[(":group", .list [.record x, .record x]), ("a", .null), (":id", .string "x")]⟩,
        ⟨[("b", .int 2), (":id", .string "x"), (":group", .list [.record y])]⟩] := rfl

end Transform

end GraphQuery
