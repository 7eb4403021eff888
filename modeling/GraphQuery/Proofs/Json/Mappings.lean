import GraphQuery.Proofs.Execution.Answers
import GraphQuery.Proofs.Json.Values
/-!
# Mappings seeded from documents

An object that is shaped like a mapping becomes a tree of mappings and sequences, and its
hierarchical answer is the value that the document stands for, pruned (`Endpoint.json_pruned`).  The
test for the shape and the building of the tree look at the same objects: what stands in an array is
an item, whatever it looks like, and what stands in a mapping is an array or a mapping again
(`Json.toValue_branch`).
-/

namespace GraphQuery

namespace Json

/--
A document that can stand in a mapping: an array of objects, or an object with members, each name
once and none of them the identifier, whose values can stand in a mapping themselves.
-/
inductive EntryShaped : Json → Prop where
  | array {js : List Json} : (∀ j ∈ js, ∃ members, j = .object members) → EntryShaped (.array js)
  | object {members : List (String × Json)} : members ≠ [] → (members.map Prod.fst).Nodup →
    idField ∉ members.map Prod.fst → (∀ m ∈ members, EntryShaped m.2) →
    EntryShaped (.object members)

def MappingShaped (j : Json) : Prop := j.EntryShaped ∧ ∃ members, j = .object members

variable {j : Json} {members : List (String × Json)}

/-- **The shape of a mapping**: every value is an array of objects, or of this shape again. -/
theorem mappingShaped_iff : (object members).MappingShaped ↔
    members ≠ [] ∧ (members.map Prod.fst).Nodup ∧ idField ∉ members.map Prod.fst ∧
      ∀ m ∈ members, (∃ js, m.2 = .array js ∧ ∀ j ∈ js, ∃ inner, j = .object inner) ∨
        m.2.MappingShaped := by
  constructor
  · rintro ⟨⟨⟩ | ⟨hne, hn, hid, hms⟩, -⟩
    refine ⟨hne, hn, hid, fun m hm => ?_⟩
    rcases hmv : m.2, hms m hm with ⟨_, ⟨hjs⟩ | h⟩
    · exact .inl ⟨_, rfl, hjs⟩
    · exact .inr ⟨hmv ▸ hms m hm, _, rfl⟩
  · rintro ⟨hne, hn, hid, hms⟩
    refine ⟨.object hne hn hid fun m hm => ?_, _, rfl⟩
    rcases hms m hm with ⟨js, hm, hjs⟩ | ⟨h, -⟩
    · exact hm ▸ .array hjs
    · exact h

theorem isObject_iff : j.isObject = true ↔ ∃ members, j = .object members := by
  cases j <;> simp [isObject]

theorem allBranches_iff : ∀ {members : List (String × Json)},
    allBranches members = true ↔ ∀ m ∈ members, m.2.isBranch = true
  | [] => by simp [allBranches]
  | (name, j) :: rest => by
    rw [allBranches, Bool.and_eq_true, allBranches_iff, List.forall_mem_cons]

theorem EntryShaped.isBranch (h : j.EntryShaped) : j.isBranch = true := by
  induction h with
  | array hjs =>
    rw [Json.isBranch, List.all_eq_true]
    exact fun j hj => isObject_iff.2 (hjs j hj)
  | object hne _ hid _ ih =>
    simp only [Json.isBranch, Bool.and_eq_true, Bool.not_eq_true', List.isEmpty_eq_false_iff,
      allBranches_iff]
    refine ⟨⟨hne, ?_⟩, ih⟩
    rw [← Bool.not_eq_true, List.any_eq_true]
    rintro ⟨m, hm, he⟩
    exact hid (List.mem_map.2 ⟨m, hm, of_decide_eq_true he⟩)

/-- **What has the shape of a mapping becomes one.** -/
theorem MappingShaped.isMapping (h : j.MappingShaped) : j.isMapping = true := by
  rw [Json.isMapping, isObject_iff.2 h.2, h.1.isBranch]
  rfl

/-! ## Values of entries -/

theorem branches_eq : ∀ members : List (String × Json),
    branches members = members.map fun m => (.name m.1, m.2.branch)
  | [] => rfl
  | (name, j) :: rest => by rw [branches, branches_eq rest, List.map_cons]

theorem record_toItem (h : ∃ members, j = .object members) : Value.record j.toItem = .ofJson j := by
  obtain ⟨members, rfl⟩ := h
  rfl

theorem toValue_branches {anonymous : String}
    (h : ∀ m ∈ members, m.2.branch.toValue anonymous = (Value.ofJson m.2).prune) :
    Tree.answered anonymous (branches members) = pruneFields (fieldsOfJson members) := by
  rw [Tree.answered, branches_eq, pruneFields_eq, fieldsOfJson_eq, List.map_map, List.map_map]
  congr 1
  refine List.map_congr_left fun m hm => ?_
  exact Prod.ext rfl (h m hm)

/-- **The tree of an entry answers what the document of the entry stands for**, pruned. -/
theorem toValue_branch (anonymous : String) (h : j.EntryShaped) :
    j.branch.toValue anonymous = (Value.ofJson j).prune := by
  induction h with
  | @array js hjs =>
    have hitems : (js.map toItem).map Value.record = valuesOfJson js := by
      rw [valuesOfJson_eq, List.map_map]
      exact List.map_congr_left fun j hj => record_toItem (hjs j hj)
    rw [branch, Tree.toValue, Seq.toList, hitems, Value.ofJson, Value.prune]
  | @object members hne hn hid hms ih =>
    have hmapping := MappingShaped.isMapping ⟨.object hne hn hid hms, _, rfl⟩
    have hof : ((fieldsOfJson members).map Prod.fst).Nodup := by
      rw [fieldsOfJson_eq, List.map_map]
      exact hn
    have hpruned := nodup_pruneFields hof
    -- with different names no entry overwrites another one, and no field is dropped
    rw [branch, if_pos hmapping, Tree.toValue_map (by rwa [toValue_branches ih]),
      toValue_branches ih, Value.ofJson, Record.ofFields_of_nodup hof, Value.prune,
      Record.ofFields_of_nodup hpruned]

theorem ofJson_of_mappingShaped (h : j.MappingShaped) : Tree.ofJson j = j.branch := by
  obtain ⟨members, rfl⟩ := h.2
  simp only [Tree.ofJson, branch, if_pos h.isMapping]

theorem toValue_ofJson (anonymous : String) (h : j.MappingShaped) :
    (Tree.ofJson j).toValue anonymous = (Value.ofJson j).prune := by
  rw [ofJson_of_mappingShaped h, toValue_branch anonymous h.1]

end Json

namespace Endpoint

/--
**A mapping seeded from a document answers what the document stands for**, pruned: whatever the
session was before and however the anonymous key is written, the run succeeds, and its hierarchical
answer is the same value and has the same JSON.  So has the answer to every text whose plan is that
document.
-/
theorem json_pruned (e : Endpoint) (j : Json) (h : j.MappingShaped) :
    (∀ m, ∃ m', e.run (.json j) m = .ok () m' ∧
      e.toValue m'.session = (Value.ofJson j).prune ∧
      (e.toValue m'.session).toJson = (Value.ofJson j).prune.toJson) ∧
    ∀ text, e.prepare text = .ok (.json j) →
      e.hierarchical text = .ok (Value.ofJson j).prune ∧
        (e.hierarchical text).map Value.toJson = .ok (Value.ofJson j).prune.toJson := by
  have hrun : ∀ m, e.run (.json j) m =
      .ok () { m with session := m.session.reset (.ofJson j) } := fun _ => rfl
  have hvalue : ∀ s : Session, e.toValue (s.reset (.ofJson j)) = (Value.ofJson j).prune :=
    fun _ => Json.toValue_ofJson e.anonymousKey h
  refine ⟨fun m => ⟨_, hrun m, hvalue m.session, congrArg Value.toJson (hvalue m.session)⟩,
    fun text ht => ?_⟩
  have hanswer : e.hierarchical text = .ok (Value.ofJson j).prune := by
    rw [hierarchical, execute, ht]
    exact congrArg Except.ok (hvalue _)
  exact ⟨hanswer, by rw [hanswer]; rfl⟩

/--
In a mapping inside a mapping an object in an array stays an item, although it looks like a mapping,
and what is empty goes.
-/
theorem json_pruned_nested :
    let e : Endpoint :=
      { schema := .default, backend := .ofFunctions (fun _ => .ok []) fun _ _ => .ok [] }
    let item : Json := .object [("knows", .array [.object [(":id", .int 2)]])]
    let j : Json := .object [("all", .object [("none", .array []), ("some", .array [item])])]
    j.MappingShaped ∧ ∃ m', e.run (.json j) ⟨.empty, {}⟩ = .ok () m' ∧
      e.toValue m'.session = .record ⟨[("all", .record ⟨[("some", .list [.record
        ⟨[("knows", .list [.record (.ofId (.int 2))])]⟩])]⟩)]⟩ := by
  intro e item j
  have hall : (Json.object [("none", .array []), ("some", .array [item])]).MappingShaped :=
    Json.mappingShaped_iff.2 ⟨by decide, by decide, by decide, List.forall_mem_cons.2
      ⟨.inl ⟨[], rfl, fun _ h => by cases h⟩, List.forall_mem_singleton.2
        (.inl ⟨[item], rfl, fun k hk => ⟨_, List.mem_singleton.1 hk⟩⟩)⟩⟩
  have hj : j.MappingShaped := Json.mappingShaped_iff.2
    ⟨by decide, by decide, by decide, List.forall_mem_singleton.2 (.inr hall)⟩
  obtain ⟨m', hm, hvalue, -⟩ := (json_pruned e j hj).1 ⟨.empty, {}⟩
  exact ⟨hj, m', hm, hvalue.trans rfl⟩

end Endpoint

end GraphQuery
