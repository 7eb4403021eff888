import Mathlib.Data.List.Forall2
import GraphQuery.Execution.Branch
import GraphQuery.Proofs.Value.Classes
import GraphQuery.Value.Lemmas
/-!
# What objects keep of the items they resolve

An object keeps all its fields and takes those it lacks from an item with its identifier
(`Objects.get?_fill`).  Every identifier serves once: the first object with it takes the fields of
the last item with it, and the later ones take nothing (`Objects.getElem?_carryOver`).  So each item
keeps what the backend does not return as long as no other item has its identifier, and what an item
shares with others is otherwise lost (`Objects.branch_of_resolves`).
-/

namespace GraphQuery

namespace Objects

variable {items objects : List Item} {item object other : Item} {id : Value} {i : Nat}

/-! ## Identifiers -/

theorem hasIdentifier_iff :
    hasIdentifier id item = true ↔ item.id?.map Value.essence = some id.essence := by
  rw [hasIdentifier]
  cases item.id? with
  | none => simp
  | some other =>
    rw [Option.any_some, Option.map_some, Option.some.injEq]
    exact Value.same_iff other id

def sharesIdentifier (a b : Item) : Bool := a.id?.any (hasIdentifier · b)

theorem sharesIdentifier_iff {a b : Item} : sharesIdentifier a b = true ↔
    ∃ id, a.id?.map Value.essence = some id ∧ b.id?.map Value.essence = some id := by
  rw [sharesIdentifier]
  cases a.id? with
  | none => simp
  | some id => simp [hasIdentifier_iff]

theorem sharesIdentifier_comm (a b : Item) : sharesIdentifier a b = sharesIdentifier b a := by
  rw [Bool.eq_iff_iff, sharesIdentifier_iff, sharesIdentifier_iff]
  exact exists_congr fun _ => and_comm

theorem sharesIdentifier_congr {a b : Item} (h : sharesIdentifier a b = true) (c : Item) :
    sharesIdentifier a c = sharesIdentifier b c := by
  obtain ⟨id, ha, hb⟩ := sharesIdentifier_iff.1 h
  rw [Bool.eq_iff_iff, sharesIdentifier_iff, sharesIdentifier_iff, ha, hb]

theorem sharesIdentifier_self {a b : Item} (h : sharesIdentifier a b = true) :
    sharesIdentifier a a = true := by
  obtain ⟨id, ha, -⟩ := sharesIdentifier_iff.1 h
  exact sharesIdentifier_iff.2 ⟨id, ha, ha⟩

/-! ## Filling one object -/

theorem prefix_fill (object item : Item) : object.fields <+: (fill object item).fields := by
  rw [fill]
  induction item.fields generalizing object with
  | nil => exact List.prefix_rfl
  | cons f rest ih =>
    refine List.IsPrefix.trans ?_ (ih (object.insertNew f.1 f.2))
    rw [Record.insertNew]
    split
    · exact List.prefix_rfl
    · exact List.prefix_append _ _

theorem get?_fill (object item : Item) (name : String) :
    (fill object item).get? name = (object.get? name).or (item.get? name) :=
  Record.get?_addFields name item.fields object

def fillFrom (object : Item) (donor : Option Item) : Item := donor.elim object (fill object)

theorem prefix_fillFrom (object : Item) (donor : Option Item) :
    object.fields <+: (fillFrom object donor).fields := by
  cases donor with
  | none => exact List.prefix_rfl
  | some item => exact prefix_fill object item

theorem get?_fillFrom (object : Item) (donor : Option Item) (name : String) :
    (fillFrom object donor).get? name = (object.get? name).or (donor.bind (·.get? name)) := by
  cases donor with
  | none => simp [fillFrom]
  | some item => exact get?_fill object item name

/-! ## Filling all objects -/

/-- The item whose fields go to the first object with its identifier: the last one that has it. -/
def donor? (items : List Item) (object : Item) : Option Item :=
  (items.filter (sharesIdentifier object)).getLast?

def unserved (items objects : List Item) : List Item :=
  items.filter fun item => !objects.any (sharesIdentifier · item)

theorem carryOver_cons (items : List Item) (object : Item) (rest : List Item) :
    carryOver items (object :: rest) =
      fillFrom object (donor? items object) :: carryOver (unserved items [object]) rest := by
  have hu : unserved items [object] = items.filter (!sharesIdentifier object ·) := by
    simp [unserved]
  rw [hu, carryOver, donor?]
  unfold sharesIdentifier
  cases object.id? with
  | none => simp [fillFrom]
  | some id =>
    simp only [Option.any_some]
    cases hl : (items.filter (hasIdentifier id)).getLast? with
    | some item => rfl
    | none =>
      -- no item has the identifier, so none is served by this object
      have hnone := List.filter_eq_nil_iff.1 (List.getLast?_eq_none_iff.1 hl)
      rw [List.filter_eq_self.2 fun item hi => by simpa using hnone item hi]
      rfl

theorem unserved_unserved (items served objects : List Item) :
    unserved (unserved items served) objects = unserved items (served ++ objects) := by
  rw [unserved, unserved, unserved, List.filter_filter]
  congr 1
  funext item
  rw [List.any_append, Bool.not_or, Bool.and_comm]

theorem length_carryOver : ∀ {items objects : List Item},
    (carryOver items objects).length = objects.length
  | _, [] => rfl
  | items, object :: rest => by
    rw [carryOver_cons, List.length_cons, length_carryOver, List.length_cons]

/-- **An object is filled from what the objects before it have left.** -/
theorem getElem?_carryOver : ∀ (items objects : List Item) (i : Nat),
    (carryOver items objects)[i]? = objects[i]?.map fun object =>
      fillFrom object (donor? (unserved items (objects.take i)) object)
  | _, [], _ => rfl
  | items, object :: rest, 0 => by
    have hu : unserved items [] = items := List.filter_eq_self.2 fun _ _ => rfl
    rw [carryOver_cons, List.take_zero, hu]
    rfl
  | items, object :: rest, i + 1 => by
    rw [carryOver_cons, List.getElem?_cons_succ, getElem?_carryOver, unserved_unserved]
    rfl

theorem donor?_unserved (items served : List Item) (object : Item) :
    donor? (unserved items served) object =
      if served.any (sharesIdentifier object) then none else donor? items object := by
  rw [donor?, unserved, List.filter_filter]
  split
  next h =>
    -- an object before has the identifier, so none of the items with it is left
    obtain ⟨first, hf, hs⟩ := List.any_eq_true.1 h
    rw [List.getLast?_eq_none_iff, List.filter_eq_nil_iff]
    intro item _ hi
    obtain ⟨hi, hn⟩ := Bool.and_eq_true_iff.1 hi
    rw [Bool.not_eq_true', List.any_eq_false] at hn
    exact hn first hf ((sharesIdentifier_congr hs item).symm.trans hi)
  next h =>
    rw [donor?]
    congr 1
    refine List.filter_congr fun item _ => ?_
    rw [Bool.and_eq_left_iff_imp]
    intro hi
    rw [Bool.not_eq_true', List.any_eq_false]
    intro first hf hs
    refine h (List.any_eq_true.2 ⟨first, hf, ?_⟩)
    rw [sharesIdentifier_congr hi, sharesIdentifier_comm]
    exact hs

/-! ## Resolving a branch -/

/-- Whether objects resolve some items: one for each, in order, that has the item's identifier. -/
def Resolves (items objects : List Item) : Prop :=
  List.Forall₂ (fun item object => sharesIdentifier item object = true) items objects

/-- The item whose fields go to a position: the last one with the identifier that stands there. -/
def donorAt? (items : List Item) (i : Nat) : Option Item :=
  items[i]?.bind fun item =>
    if (items.take i).any (sharesIdentifier item) then none else donor? items item

theorem Resolves.getElem? (h : Resolves items objects) (hi : items[i]? = some item)
    (ho : objects[i]? = some object) : sharesIdentifier item object = true := by
  obtain ⟨hlt, rfl⟩ := List.getElem?_eq_some_iff.1 hi
  obtain ⟨hlt', rfl⟩ := List.getElem?_eq_some_iff.1 ho
  exact List.Forall₂.get h hlt hlt'

theorem Resolves.any_take (h : Resolves items objects) (i : Nat) (item : Item) :
    (objects.take i).any (sharesIdentifier item) = (items.take i).any (sharesIdentifier item) := by
  have hs := List.forall₂_take i h
  generalize items.take i = before at hs
  generalize objects.take i = found at hs
  induction hs with
  | nil => rfl
  | cons hab _ ih =>
    rw [List.any_cons, List.any_cons, ih, sharesIdentifier_comm, sharesIdentifier_comm item,
      sharesIdentifier_congr hab]

theorem donor?_congr (h : sharesIdentifier item object = true) :
    donor? items object = donor? items item := by
  rw [donor?, donor?, funext (sharesIdentifier_congr h)]

theorem donorAt?_of_unique (hi : items[i]? = some item) (hid : sharesIdentifier item item = true)
    (hu : ∀ j other, items[j]? = some other → sharesIdentifier item other = true → j = i) :
    donorAt? items i = some item := by
  obtain ⟨hlt, hat⟩ := List.getElem?_eq_some_iff.1 hi
  have hsplit : items = items.take i ++ item :: items.drop (i + 1) := by
    rw [← hat, List.getElem_cons_drop, List.take_append_drop]
  have hbefore : ∀ other ∈ items.take i, ¬ sharesIdentifier item other = true := by
    intro other hm hs
    obtain ⟨j, hj, rfl⟩ := List.mem_take_iff_getElem.1 hm
    have := hu j _ (List.getElem?_eq_getElem _) hs
    omega
  have hbehind : ∀ other ∈ items.drop (i + 1), ¬ sharesIdentifier item other = true := by
    intro other hm hs
    obtain ⟨j, hj, rfl⟩ := List.mem_drop_iff_getElem.1 hm
    have := hu _ _ (List.getElem?_eq_getElem _) hs
    omega
  rw [donorAt?, hi, Option.bind_some, if_neg, donor?, hsplit, List.filter_append,
    List.filter_eq_nil_iff.2 hbefore, List.nil_append, List.filter_cons_of_pos hid,
    List.filter_eq_nil_iff.2 hbehind]
  · rfl
  · rw [List.any_eq_true]
    rintro ⟨other, hm, hs⟩
    exact hbefore other hm hs

/--
**When a backend resolves all items of a branch, there are as many records as items; each keeps all
fields of its object, and takes those it lacks from the last item with its identifier if it is the
first one with it, and else from none.**  So an item whose identifier no other item has keeps what
its object lacks.
-/
theorem branch_of_resolves {b : Backend} {w : World} (hr : Resolves items objects)
    (hb : b.objects w.calls (items.filterMap Record.id?) = .ok objects) :
    ∃ out, (branch b items w).1 = .ok out ∧ out.length = items.length ∧
      ∀ (i : Nat) (item object : Item), items[i]? = some item → objects[i]? = some object →
        ∃ record : Item, out[i]? = some record ∧ object.fields <+: record.fields ∧
          (∀ name, record.get? name =
            (object.get? name).or ((donorAt? items i).bind (·.get? name))) ∧
          ((∀ j other, items[j]? = some other → sharesIdentifier item other = true → j = i) →
            ∀ name, record.get? name = (object.get? name).or (item.get? name)) := by
  have hout : (branch b items w).1 = .ok (carryOver items objects) := by
    rw [branch]
    split
    next hids =>
      -- without items there is nothing to resolve
      cases hr with
      | nil => rfl
      | cons h _ =>
        obtain ⟨id, hid, -⟩ := (Option.any_eq_true _ _).1 h
        simp [hid] at hids
    next =>
      rw [Backend.askObjects, hb]
      rfl
  refine ⟨_, hout, length_carryOver.trans hr.length_eq.symm, fun i item object hi ho => ?_⟩
  have hs := hr.getElem? hi ho
  have hd : donor? (unserved items (objects.take i)) object = donorAt? items i := by
    rw [donor?_unserved, donorAt?, hi, Option.bind_some, donor?_congr hs, ← hr.any_take,
      funext (sharesIdentifier_congr hs)]
  refine ⟨fillFrom object (donorAt? items i), ?_, prefix_fillFrom _ _, get?_fillFrom _ _, ?_⟩
  · rw [getElem?_carryOver, ho, Option.map_some, hd]
  · intro hu name
    rw [donorAt?_of_unique hi (sharesIdentifier_self hs) hu]
    exact get?_fillFrom _ _ name

/-- Three items of two identifiers: the first one takes the fields of the last one. -/
theorem branch_of_resolves_repeated :
    let note : Int64 → String → Item := fun id text =>
      ⟨[(idField, .int id), ("note", .string text)]⟩
    let items : List Item := [note 1 "a", note 2 "b", note 1 "c"]
    let objects : List Item := [.ofId (.int 1), .ofId (.int 2), .ofId (.int 1)]
    let b : Backend := .ofFunctions (fun ids => .ok (ids.map .ofId)) fun _ _ => .ok []
    Resolves items objects ∧ b.objects [] (items.filterMap Record.id?) = .ok objects ∧
      (branch b items {}).1 = .ok [note 1 "c", note 2 "b", .ofId (.int 1)] ∧
      ∃ out, (branch b items {}).1 = .ok out ∧ out.length = items.length := by
  intro note items objects b
  have hr : Resolves items objects := .cons rfl (.cons rfl (.cons rfl .nil))
  have hb : b.objects [] (items.filterMap Record.id?) = .ok objects := rfl
  obtain ⟨out, hout, hlen, -⟩ := branch_of_resolves (w := {}) hr hb
  exact ⟨hr, hb, rfl, out, hout, hlen⟩

/-- Two items of one identifier: neither keeps its own field. -/
theorem branch_repeated :
    let note : String → Item := fun text => ⟨[(idField, .int 1), ("note", .string text)]⟩
    let b : Backend := .ofFunctions (fun ids => .ok (ids.map .ofId)) fun _ _ => .ok []
    Resolves [note "a", note "b"] [.ofId (.int 1), .ofId (.int 1)] ∧
      (branch b [note "a", note "b"] {}).1 = .ok [note "b", .ofId (.int 1)] ∧
      (note "b").get? "note" ≠ (note "a").get? "note" ∧
      (Record.ofId (Value.int 1)).get? "note" ≠ (note "b").get? "note" := by
  intro note b
  refine ⟨.cons rfl (.cons rfl .nil), rfl, ?_, ?_⟩
  · simp [note, Record.get?, Record.lookup, idField]
  · simp [note, Record.get?, Record.lookup, idField, Record.ofId]

end Objects

end GraphQuery
