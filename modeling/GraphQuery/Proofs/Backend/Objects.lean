import GraphQuery.Backend.Store
import GraphQuery.Proofs.Json.Values
/-!
# Objects that come back from a store

A store keeps the text of what was last inserted under a key (`Store.lookup_texts`), with the key as
its identifier if it had none.  Items that JSON keeps come back from it with their fields in the order
of their names (`Store.objects_recalled`).  The key and the identifier of an object are two things, and
only the second one comes back: an object answers to the key that it was found under exactly when it
was inserted without an identifier or with that one (`Store.id?_of_objects`).
-/

namespace GraphQuery

/-! ## Answers in order -/

namespace Backend

variable {α β : Type} {f : α → Except BackendError β}

theorem each_eq_ok : ∀ {as : List α} {bs : List β},
    each f as = .ok bs ↔ List.Forall₂ (fun a b => f a = .ok b) as bs
  | [], bs => by
    rw [List.forall₂_nil_left_iff, each, Except.ok.injEq, eq_comm]
  | a :: as, bs => by
    rw [List.forall₂_cons_left_iff, each]
    cases ha : f a with
    | error e => simp [Except.bind]
    | ok b =>
      simp only [Except.bind, Except.ok.injEq, exists_and_left, exists_eq_left']
      cases hrest : each f as with
      | error e => simp [Except.map, ← each_eq_ok, hrest]
      | ok rest => simp [Except.map, ← each_eq_ok, hrest, eq_comm]

theorem each_of_some {as : List α} {g : α → Option β} (hf : ∀ a b, g a = some b → f a = .ok b)
    (hall : ∀ a ∈ as, (g a).isSome = true) : ∃ bs, each f as = .ok bs ∧ bs.map some = as.map g := by
  induction as with
  | nil => exact ⟨[], rfl, rfl⟩
  | cons a as ih =>
    obtain ⟨ha, hrest⟩ := List.forall_mem_cons.1 hall
    obtain ⟨b, hb⟩ := Option.isSome_iff_exists.1 ha
    obtain ⟨bs, hbs, hmap⟩ := ih hrest
    refine ⟨b :: bs, ?_, ?_⟩
    · rw [each, hf a b hb, Except.bind, hbs]
      rfl
    · rw [List.map_cons, List.map_cons, hb, hmap]

theorem each_eq_error {before rest : List α} {a : α} {e : BackendError}
    (hbefore : ∀ b ∈ before, ∃ r, f b = .ok r) (ha : f a = .error e) :
    each f (before ++ a :: rest) = .error e := by
  induction before with
  | nil =>
    rw [List.nil_append, each, ha]
    rfl
  | cons b before ih =>
    obtain ⟨⟨r, hr⟩, hrest⟩ := List.forall_mem_cons.1 hbefore
    rw [List.cons_append, each, hr, Except.bind, ih hrest]
    rfl

end Backend

/-! ## What is kept -/

namespace Item

/-- An item as it is kept under a key: with the key as its identifier if it has none. -/
def identified (key : Int64) (item : Item) : Item :=
  if item.hasId then item else item.set idField (.int key)

/-- The identifier of an item in its text, which keeps the last value of a repeated field. -/
def lastId? (item : Item) : Option Value := Record.lookup idField item.fields.reverse

/-- Whether an item comes back from its text: no floats, no repeated names, not too deep. -/
def isStorable (item : Item) : Bool :=
  (Value.record item).isLossless && decide ((Value.record item).depth ≤ Json.maxDepth)

theorem identified_of_hasId {item : Item} (h : item.hasId = true) (key : Int64) :
    item.identified key = item := if_pos h

theorem not_mem_names {item : Item} (h : ¬ item.hasId = true) : idField ∉ item.names :=
  fun hm => h ((Record.contains_iff item idField).2 hm)

theorem identified_of_not_hasId {item : Item} (h : ¬ item.hasId = true) (key : Int64) :
    item.identified key = ⟨item.fields ++ [(idField, .int key)]⟩ := by
  rw [identified, if_neg h, Record.set_of_new (not_mem_names h)]

theorem hasId_identified (item : Item) (key : Int64) : (item.identified key).hasId = true := by
  by_cases h : item.hasId = true
  · rw [identified_of_hasId h]
    exact h
  · rw [identified_of_not_hasId h]
    refine (Record.contains_iff _ idField).2 ?_
    rw [Record.names, List.map_append]
    exact List.mem_append_right _ List.mem_cons_self

theorem lastId?_identified (key : Int64) (item : Item) :
    (item.identified key).lastId? = some (item.lastId?.getD (.int key)) := by
  by_cases h : item.hasId = true
  · obtain ⟨v, hv⟩ : ∃ v, item.lastId? = some v := by
      rw [← Option.isSome_iff_exists, lastId?, Record.lookup_isSome_iff, List.map_reverse,
        List.mem_reverse]
      exact (Record.contains_iff item idField).1 h
    rw [identified_of_hasId h, hv]
    rfl
  · have hnone : item.lastId? = none := by
      rw [← Option.not_isSome_iff_eq_none, lastId?, Record.lookup_isSome_iff, List.map_reverse,
        List.mem_reverse]
      exact not_mem_names h
    rw [identified_of_not_hasId h, hnone, lastId?, List.reverse_concat]
    rfl

theorem isStorable_iff {item : Item} : item.isStorable = true ↔
    item.names.Nodup ∧ ∀ f ∈ item.fields, f.2.isLossless = true ∧ f.2.depth < Json.maxDepth := by
  obtain ⟨fields⟩ := item
  rw [isStorable, Bool.and_eq_true, decide_eq_true_eq, Value.isLossless_record, Value.depth,
    Nat.succ_le_iff, Json.maxDepth, Nat.lt_succ_iff, Value.fieldsDepth_le_iff, and_assoc,
    ← forall₂_and]
  simp only [Nat.lt_succ_iff]

theorem isStorable_identified {item : Item} (h : item.isStorable = true) (key : Int64) :
    (item.identified key).isStorable = true := by
  by_cases hid : item.hasId = true
  · rw [identified_of_hasId hid]
    exact h
  · obtain ⟨hn, hf⟩ := isStorable_iff.1 h
    rw [identified_of_not_hasId hid, isStorable_iff, Record.names, List.map_append,
      List.forall_mem_append, List.forall_mem_singleton]
    refine ⟨?_, hf, rfl, Nat.succ_pos _⟩
    exact List.concat_eq_append ▸ hn.concat (not_mem_names hid)

end Item

namespace Store

def ofObjects (inserts : List (Int64 × Item)) : Store :=
  inserts.foldl (fun s p => s.insertObject p.1 p.2) empty

def last? (inserts : List (Int64 × Item)) (key : Int64) : Option Item :=
  inserts.reverse.lookup key

/-- What a store is to answer for an identifier: the item last inserted under it. -/
def recalled? (inserts : List (Int64 × Item)) : Value → Option Item
  | .int key => (last? inserts key).map fun item => (item.identified key).arranged
  | _ => none

variable {inserts : List (Int64 × Item)} {key : Int64} {id : Value} {item r : Item}

/-- **Under a key a store keeps the text of the item last inserted under it.** -/
theorem lookup_texts (inserts : List (Int64 × Item)) (key : Int64) :
    (ofObjects inserts).texts.lookup key =
      (last? inserts key).map fun item => (item.identified key).toJson.render := by
  induction inserts using List.reverseRecOn with
  | nil => rfl
  | append_singleton inserts p ih =>
    have htexts : (ofObjects (inserts ++ [p])).texts =
        (p.1, (p.2.identified p.1).toJson.render) :: (ofObjects inserts).texts := by
      rw [ofObjects, List.foldl_append]
      rfl
    rw [htexts, last?, List.reverse_concat, List.lookup_cons, List.lookup_cons, ih]
    by_cases hk : key = p.1
    · rw [hk, beq_self_eq_true]
      rfl
    · rw [beq_false_of_ne hk]
      rfl

theorem mem_of_last? (h : last? inserts key = some item) : (key, item) ∈ inserts := by
  obtain ⟨newer, older, hl, -⟩ := List.lookup_eq_some_iff.1 h
  rw [← List.mem_reverse, hl]
  exact List.mem_append_right _ List.mem_cons_self

theorem object_of_isStorable (h : last? inserts key = some item) (hs : item.isStorable = true) :
    (ofObjects inserts).object (.int key) = .ok (item.identified key).arranged := by
  obtain ⟨hl, hd⟩ := (Bool.and_eq_true _ _).mp (Item.isStorable_identified hs key)
  obtain ⟨j, hj, hr⟩ := Option.map_eq_some_iff.1 (Value.read_lossless hl (of_decide_eq_true hd))
  have hread : Json.parse? (item.identified key).toJson.render = some j := hj
  simp only [object, lookup_texts, h, Option.map_some, hread, hr]
  rfl

theorem object_of_recalled? (h : ∀ p ∈ inserts, p.2.isStorable = true)
    (hr : recalled? inserts id = some r) : (ofObjects inserts).object id = .ok r := by
  cases id with
  | int key =>
    obtain ⟨item, hl, rfl⟩ := Option.map_eq_some_iff.1 hr
    exact object_of_isStorable hl (h (key, item) (mem_of_last? hl))
  | _ => cases hr

theorem object_of_not_recalled (hr : recalled? inserts id = none) :
    (ofObjects inserts).object id = .error (.notFound id) := by
  cases id with
  | int key => simp only [object, lookup_texts, Option.map_eq_none_iff.1 hr, Option.map_none]
  | _ => rfl

theorem of_object (h : (ofObjects inserts).object id = .ok r) :
    ∃ key item, id = .int key ∧ last? inserts key = some item ∧ r.hasId = true ∧
      r.id? = (item.lastId?.getD (.int key)).reread? := by
  cases id with
  | int key =>
    rw [object, lookup_texts] at h
    cases hl : last? inserts key with
    | none =>
      rw [hl] at h
      cases h
    | some item =>
      simp only [hl, Option.map_some] at h
      cases hj : Json.parse? (item.identified key).toJson.render with
      | none =>
        rw [hj] at h
        cases h
      | some j =>
        obtain ⟨r', hr, hc, hg⟩ := Item.get?_of_parse? hj
        simp only [hj, hr] at h
        cases h
        have hid : r.id? = (item.lastId?.getD (.int key)).reread? := by
          rw [Record.id?, hg, ← Item.lastId?, Item.lastId?_identified]
          rfl
        exact ⟨key, item, rfl, hl, (hc idField).trans (Item.hasId_identified item key), hid⟩
  | _ => cases h

/--
**Objects come back as they were inserted.**  If JSON keeps all the items that were inserted, then a
lookup of identifiers that are all in the store answers each with the item last inserted under it, and
a lookup of any others fails at the first that is not.
-/
theorem objects_recalled (h : ∀ p ∈ inserts, p.2.isStorable = true) (history : List Call)
    (ids : List Value) :
    ((∀ id ∈ ids, (recalled? inserts id).isSome = true) →
      ∃ found, (ofObjects inserts).backend.objects history ids = .ok found ∧
        found.map some = ids.map (recalled? inserts)) ∧
    ∀ before id rest, ids = before ++ id :: rest →
      (∀ b ∈ before, (recalled? inserts b).isSome = true) → recalled? inserts id = none →
        (ofObjects inserts).backend.objects history ids = .error (.notFound id) := by
  refine ⟨Backend.each_of_some fun _ _ => object_of_recalled? h, ?_⟩
  rintro before id rest rfl hbefore hid
  refine Backend.each_eq_error (fun b hb => ?_) (object_of_not_recalled hid)
  obtain ⟨r, hr⟩ := Option.isSome_iff_exists.1 (hbefore b hb)
  exact ⟨r, object_of_recalled? h hr⟩

/-- A key inserted twice and asked for twice, and an item that nests and that has strings to escape. -/
theorem objects_recalled_of_nested :
    let inserts : List (Int64 × Item) :=
      [(1, ⟨[("name", .string "bob")]⟩),
       (-5, ⟨[("z", .list [.string "\u0001\"\\é", .record ⟨[("y", .null), ("x", .int (-7))]⟩]),
         (idField, .int (-5)), ("a", .bool true)]⟩),
       (1, ⟨[("name", .string "ada")]⟩)]
    let ada : Item := ⟨[(idField, .int 1), ("name", .string "ada")]⟩
    (ofObjects inserts).backend.objects [] [.int 1, .int (-5), .int 1] = .ok
      [ada,
       ⟨[(idField, .int (-5)), ("a", .bool true),
         ("z", .list [.string "\u0001\"\\é", .record ⟨[("x", .int (-7)), ("y", .null)]⟩])]⟩,
       ada] ∧
    (ofObjects inserts).backend.objects [] [.int 1, .int 2, .int 3] = .error (.notFound (.int 2)) := by
  intro inserts ada
  have hs : ∀ p ∈ inserts, p.2.isStorable = true := by decide +kernel
  obtain ⟨found, hfound, hmap⟩ :=
    (objects_recalled hs [] [.int 1, .int (-5), .int 1]).1 (by decide +kernel)
  refine ⟨hfound.trans (congrArg _ (List.map_injective_iff.2 (Option.some_injective _) hmap)), ?_⟩
  exact (objects_recalled hs [] [.int 1, .int 2, .int 3]).2 [.int 1] (.int 2) [.int 3] rfl
    (by decide +kernel) rfl

/--
**An object answers to the identifier that it carries.**  Whatever was inserted, each object that is
found was inserted under the key that was asked for and has an identifier, which is that key exactly
when it was inserted without one or with that one.
-/
theorem id?_of_objects {history : List Call} {ids : List Value} {found : List Item}
    (h : (ofObjects inserts).backend.objects history ids = .ok found) :
    List.Forall₂ (fun id r => ∃ key item, id = .int key ∧ last? inserts key = some item ∧
      r.hasId = true ∧ (r.id? = some id ↔ ∀ v, item.lastId? = some v → v = id)) ids found := by
  refine (Backend.each_eq_ok.1 h).imp fun id r hr => ?_
  obtain ⟨key, item, rfl, hl, hhas, hid⟩ := of_object hr
  refine ⟨key, item, rfl, hl, hhas, ?_⟩
  rw [hid, Value.reread?_eq_int_iff]
  cases item.lastId? with
  | none => simp
  | some v => simp

/-- An object that was inserted without an identifier, and one that carries that of the other. -/
theorem id?_of_objects_of_two :
    let inserts : List (Int64 × Item) := [(1, .empty), (2, .ofId (.int 1))]
    let ids : List Value := [.int 1, .int 2]
    let found : List Item := [.ofId (.int 1), .ofId (.int 1)]
    (ofObjects inserts).backend.objects [] ids = .ok found ∧
    List.Forall₂ (fun id r => ∃ key item, id = .int key ∧ last? inserts key = some item ∧
      r.hasId = true ∧ (r.id? = some id ↔ ∀ v, item.lastId? = some v → v = id)) ids found := by
  intro inserts ids found
  have hs : ∀ p ∈ inserts, p.2.isStorable = true := by decide +kernel
  have hfound : (ofObjects inserts).backend.objects [] ids = .ok found :=
    Backend.each_eq_ok.2 (.cons (object_of_recalled? hs rfl) (.cons (object_of_recalled? hs rfl) .nil))
  exact ⟨hfound, id?_of_objects hfound⟩

/-- An object may have been inserted with another identifier than the one it is found under. -/
theorem not_id?_of_foreign :
    ¬ ∀ (inserts : List (Int64 × Item)) (history : List Call) (ids : List Value) (found : List Item),
      (ofObjects inserts).backend.objects history ids = .ok found →
        List.Forall₂ (fun id r => r.id? = some id) ids found := by
  intro hall
  have hs : ∀ p ∈ ([(1, .ofId (.int 2))] : List (Int64 × Item)), p.2.isStorable = true := by
    decide +kernel
  have hfound : (ofObjects [(1, .ofId (.int 2))]).backend.objects [] [.int 1] = .ok [.ofId (.int 2)] :=
    Backend.each_eq_ok.2 (.cons (object_of_recalled? hs rfl) .nil)
  cases hall _ _ _ _ hfound with
  | cons hid _ => cases hid

end Store

end GraphQuery
