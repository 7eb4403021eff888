import GraphQuery.Proofs.Value.Classes
/-!
# Alike values

The rule of equality, said for itself (`Value.Alike`): scalars are alike when they are the same,
floats by their bit patterns; lists are alike element by element; records are alike by their
identifiers if both have one, and field by field otherwise.

The rule changes with the pair it is asked about, and still equality is an equivalence
(`Value.equivalence_beq`): where records are alike field by field, both or none of them have an
identifier (`Item.hasId_of_beq`), so no chain leads from one criterion to the other.
-/

namespace GraphQuery

def Record.values {V : Type} (r : Record V) : List V := r.fields.map Prod.snd

namespace Value

inductive Alike : Value → Value → Prop where
  | null : Alike null null
  | bool (b : Bool) : Alike (bool b) (bool b)
  | int (i : Int64) : Alike (int i) (int i)
  | float (d : Double) : Alike (float d) (float d)
  | string (s : String) : Alike (string s) (string s)
  | nil : Alike (list []) (list [])
  | cons {a b : Value} {as bs : List Value} (head : Alike a b) (tail : Alike (list as) (list bs)) :
      Alike (list (a :: as)) (list (b :: bs))
  /-- records that have identifiers, whatever else they hold -/
  | identified {a b : Item} {x y : Value} (ha : a.id? = some x) (hb : b.id? = some y)
      (ids : Alike x y) : Alike (record a) (record b)
  /-- records that do not both have identifiers, field by field in order -/
  | unidentified {a b : Item} (h : a.id? = none ∨ b.id? = none) (names : a.names = b.names)
      (values : Alike (list a.values) (list b.values)) : Alike (record a) (record b)

end Value

/-! ## Records field by field -/

theorem sameFields_iff_values : ∀ {as bs : List (String × Value)}, sameFields as bs = true ↔
    as.map Prod.fst = bs.map Prod.fst ∧ sameValues (as.map Prod.snd) (bs.map Prod.snd) = true
  | [], [] => by simp [sameFields, sameValues]
  | [], _ :: _ | _ :: _, [] => by simp [sameFields]
  | (m, a) :: as, (n, b) :: bs => by
    have ih := @sameFields_iff_values as bs
    simp only [sameFields, sameValues, List.map_cons, List.cons.injEq, Bool.and_eq_true,
      beq_iff_eq, ih]
    grind

namespace Item

theorem id?_cases (a b : Item) :
    (a.id? = none ∨ b.id? = none) ∨ ∃ x y, a.id? = some x ∧ b.id? = some y := by
  cases a.id? with
  | none => exact .inl (.inl rfl)
  | some x =>
    cases b.id? with
    | none => exact .inl (.inr rfl)
    | some y => exact .inr ⟨x, y, rfl, rfl⟩

theorem beq_identified {a b : Item} {x y : Value} (ha : a.id? = some x) (hb : b.id? = some y) :
    (a == b) = true ↔ (x == y) = true := by
  have hs := sameItem_eq a b
  rw [ha, hb] at hs
  exact Bool.eq_iff_iff.1 hs

theorem beq_unidentified {a b : Item} (h : a.id? = none ∨ b.id? = none) :
    (a == b) = true ↔ a.names = b.names ∧ (Value.list a.values == .list b.values) = true := by
  have hs := sameItem_eq a b
  have hf : a.same b = sameFields a.fields b.fields := by
    rw [hs]
    rcases h with h | h <;> rw [h]
    cases a.id? <;> rfl
  exact (Bool.eq_iff_iff.1 hf).trans sameFields_iff_values

/-- **Equal items both have an identifier, or neither has one.** -/
theorem hasId_of_beq {a b : Item} (h : (a == b) = true) : a.hasId = b.hasId := by
  have hid := id?_of_essence_eq (Item.beq_iff.1 h)
  simpa [Record.hasId, Record.id?, Record.get?] using congrArg Option.isSome hid

end Item

namespace Value

/-! ## Equality decides what is alike -/

theorem beq_cons {a b : Value} {as bs : List Value} : (list (a :: as) == list (b :: bs)) = true ↔
    (a == b) = true ∧ (list as == list bs) = true := Bool.and_eq_true_iff

theorem Alike.beq {a b : Value} (h : Alike a b) : (a == b) = true := by
  induction h with
  | null | bool _ | int _ | float _ | string _ | nil => exact same_self _
  | cons _ _ head tail => exact beq_cons.2 ⟨head, tail⟩
  | identified ha hb _ ids => exact (Item.beq_identified ha hb).2 ids
  | unidentified h names _ values => exact (Item.beq_unidentified h).2 ⟨names, values⟩

theorem alike_list : ∀ {as bs : List Value},
    (∀ a ∈ as, ∀ b : Value, (a == b) = true → Alike a b) →
      (list as == list bs) = true → Alike (list as) (list bs)
  | [], [], _, _ => .nil
  | [], _ :: _, _, h | _ :: _, [], _, h => by cases h
  | a :: as, b :: bs, ih, h => by
    obtain ⟨hhead, htail⟩ := List.forall_mem_cons.1 ih
    obtain ⟨hab, h⟩ := beq_cons.1 h
    exact .cons (hhead b hab) (alike_list htail h)

theorem alike_of_beq (a : Value) : ∀ b : Value, (a == b) = true → Alike a b := by
  induction a using Value.induction with
  | null =>
    intro b h
    cases b with
    | null => exact .null
    | _ => cases h
  | bool x =>
    intro b h
    cases b with
    | bool y =>
      obtain rfl : x = y := eq_of_beq h
      exact .bool x
    | _ => cases h
  | int x =>
    intro b h
    cases b with
    | int y =>
      obtain rfl : x = y := eq_of_beq h
      exact .int x
    | _ => cases h
  | float x =>
    intro b h
    cases b with
    | float y =>
      obtain rfl : x = y := eq_of_beq h
      exact .float x
    | _ => cases h
  | string x =>
    intro b h
    cases b with
    | string y =>
      obtain rfl : x = y := eq_of_beq h
      exact .string x
    | _ => cases h
  | list as ih =>
    intro b h
    cases b with
    | list bs => exact alike_list ih h
    | _ => cases h
  | record fields ih =>
    intro b h
    cases b with
    | record b =>
      rcases Item.id?_cases ⟨fields⟩ b with hid | ⟨x, y, ha, hb⟩
      · obtain ⟨hnames, hvalues⟩ := (Item.beq_unidentified hid).1 h
        refine .unidentified hid hnames (alike_list (fun v hv => ?_) hvalues)
        obtain ⟨f, hf, rfl⟩ := List.mem_map.1 hv
        exact ih f hf
      · have hmem := Record.mem_of_lookup ha
        exact .identified ha hb (ih _ hmem y ((Item.beq_identified ha hb).1 h))
    | _ => cases h

theorem beq_iff_alike {a b : Value} : (a == b) = true ↔ Alike a b := ⟨alike_of_beq a b, Alike.beq⟩

/-- **Equality of values is an equivalence.** -/
instance : EquivBEq Value where
  rfl := same_self _
  symm h := (same_iff _ _).2 ((same_iff _ _).1 h).symm
  trans h h' := (same_iff _ _).2 (((same_iff _ _).1 h).trans ((same_iff _ _).1 h'))

/--
**Equality holds of alike values and items and of no others, and it is an equivalence** on values and
on items.  It never holds of an item with an identifier and one without.
-/
theorem equivalence_beq :
    ((Equivalence fun a b : Value => (a == b) = true) ∧
        ∀ a b : Value, (a == b) = true ↔ Alike a b) ∧
      (Equivalence fun a b : Item => (a == b) = true) ∧
        ∀ a b : Item, ((a == b) = true ↔ Alike (record a) (record b)) ∧
          ((a == b) = true → a.hasId = b.hasId) :=
  ⟨⟨⟨fun _ => BEq.rfl, BEq.symm, BEq.trans⟩, fun _ _ => beq_iff_alike⟩,
    ⟨fun _ => BEq.rfl, BEq.symm, BEq.trans⟩, fun _ _ => ⟨beq_iff_alike, Item.hasId_of_beq⟩⟩

end Value

end GraphQuery
