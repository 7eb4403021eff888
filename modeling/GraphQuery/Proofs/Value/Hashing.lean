import GraphQuery.Proofs.Value.Classes
/-!
# Hashing items

A hash is made of what equality looks at: of the identifier of an item that has one, and of all its
fields otherwise.  So equal items have the same hash (`Item.fed_eq_of_beq`), and a table that
compares an item only with those of its hash finds what a search through all of them finds
(`Item.found_eq_contains`).
-/

namespace GraphQuery

inductive Fed where
  | kind (k : Kind)
  | flag (b : Bool)
  | number (i : Int64)
  | pattern (bits : UInt64)
  | text (s : String)
  | size (n : Nat)

mutual

def Value.fed : Value → List Fed
  | .null => [.kind .null]
  | .bool b => [.kind .bool, .flag b]
  | .int i => [.kind .int, .number i]
  | .float d => [.kind .float, .pattern d.bits]
  | .string s => [.kind .string, .text s]
  | .list vs => .kind .list :: .size vs.length :: fedOfValues vs
  | .record ⟨fields⟩ =>
    .kind .record :: (fedOfId? fields).getD (.size fields.length :: fedOfFields fields)
termination_by structural v => v

def fedOfValues : List Value → List Fed
  | [] => []
  | v :: rest => v.fed ++ fedOfValues rest
termination_by structural vs => vs

def fedOfFields : List (String × Value) → List Fed
  | [] => []
  | (name, v) :: rest => .text name :: (v.fed ++ fedOfFields rest)
termination_by structural fields => fields

def fedOfId? : List (String × Value) → Option (List Fed)
  | [] => none
  | (name, v) :: rest => if name = idField then some v.fed else fedOfId? rest
termination_by structural fields => fields

end

/-- What an item feeds a hasher with: its identifier alone, if there is one. -/
def Item.fed (item : Item) : List Fed :=
  (fedOfId? item.fields).getD (.size item.size :: fedOfFields item.fields)

theorem fed_record (item : Item) : (Value.record item).fed = .kind .record :: item.fed := rfl

theorem fedOfId?_eq (fields : List (String × Value)) :
    fedOfId? fields = (Record.lookup idField fields).map Value.fed := by
  induction fields with
  | nil => rfl
  | cons f rest ih =>
    rw [fedOfId?, Record.lookup, ih]
    split <;> rfl

theorem length_essences (vs : List Value) : (essences vs).length = vs.length := by
  induction vs with
  | nil => rfl
  | cons v rest ih => exact congrArg (· + 1) ih

theorem length_essenceOfFields (fields : List (String × Value)) :
    (essenceOfFields fields).length = fields.length := by
  induction fields with
  | nil => rfl
  | cons f rest ih => exact congrArg (· + 1) ih

theorem fedOfValues_essences {vs : List Value} (h : ∀ v ∈ vs, v.essence.fed = v.fed) :
    fedOfValues (essences vs) = fedOfValues vs := by
  induction vs with
  | nil => rfl
  | cons v rest ih =>
    obtain ⟨hv, hrest⟩ := List.forall_mem_cons.1 h
    rw [essences, fedOfValues, fedOfValues, hv, ih hrest]

theorem fedOfFields_essence {fields : List (String × Value)}
    (h : ∀ f ∈ fields, f.2.essence.fed = f.2.fed) :
    fedOfFields (essenceOfFields fields) = fedOfFields fields := by
  induction fields with
  | nil => rfl
  | cons f rest ih =>
    obtain ⟨hf, hrest⟩ := List.forall_mem_cons.1 h
    rw [essenceOfFields, fedOfFields, fedOfFields, hf, ih hrest]

/-- **A hash is made of what equality looks at.** -/
theorem Value.fed_essence (v : Value) : v.essence.fed = v.fed := by
  induction v using Value.induction with
  | null | bool _ | int _ | float _ | string _ => rfl
  | list vs ih =>
    rw [Value.essence, Value.fed, Value.fed, length_essences, fedOfValues_essences ih]
  | record fields ih =>
    rw [essence_record, Value.fed, Value.fed, fedOfId?_eq, fedOfId?_eq]
    cases hid : Record.lookup idField fields with
    | none =>
      rw [Option.map_none, Option.elim_none, lookup_essenceOfFields, hid, fedOfFields_essence ih,
        length_essenceOfFields]
      rfl
    | some id =>
      have hfed : id.essence.fed = id.fed := ih (idField, id) (Record.mem_of_lookup hid)
      simp [Record.lookup, hfed]

namespace Item

/-- **Equal items have the same hash.** -/
theorem fed_eq_of_beq {a b : Item} (h : (a == b) = true) : a.fed = b.fed := by
  have hfed : (Value.record a).fed = (Value.record b).fed := by
    rw [← Value.fed_essence, Item.beq_iff.1 h, Value.fed_essence]
  rw [fed_record, fed_record] at hfed
  exact (List.cons.inj hfed).2

/-- What a table finds that compares an item only with those of its hash. -/
def found {κ : Type} [BEq κ] (hash : List Fed → κ) (held : List Item) (a : Item) : Bool :=
  held.any fun b => hash a.fed == hash b.fed && a == b

/-- **A table finds what a search through all its items finds**, whatever the hash. -/
theorem found_eq_contains {κ : Type} [BEq κ] [ReflBEq κ] (hash : List Fed → κ) (held : List Item)
    (a : Item) : found hash held a = held.contains a := by
  rw [List.contains_eq_any_beq, found]
  refine congrArg (held.any ·) (funext fun b => ?_)
  cases h : a == b with
  | false => exact Bool.and_false _
  | true => rw [fed_eq_of_beq h, BEq.rfl, Bool.and_true]

end Item

end GraphQuery
