import GraphQuery.Proofs.Value.Alike
import GraphQuery.Proofs.Value.Knots
/-!
# Ties between different values

Equal values tie in the sorting order, and so do some that are not equal (`Value.Blurred`): an
integer and a float that are compared as one number, records that differ and do not both have
identifiers, and whatever differs in nothing else.  These are all ties that there are
(`Value.order_eq_iff`).

Items are compared by their identifiers, so their comparison and their equality tell the same items
apart as long as no identifiers are blurred (`Item.compare?_eq_iff_beq`).
-/

namespace GraphQuery

namespace Value

/-- Two values that differ and that the sorting order does not tell apart. -/
inductive Blurred : Value → Value → Prop where
  /-- numbers of different kinds that are compared as one number -/
  | intFloat {i : Int64} {d : Double} (h : (int i).order (float d) = .eq) :
      Blurred (int i) (float d)
  | floatInt {d : Double} {i : Int64} (h : (float d).order (int i) = .eq) :
      Blurred (float d) (int i)
  /-- records that differ and do not both have identifiers -/
  | unidentified {a b : Item} (h : a.id? = none ∨ b.id? = none) (hne : (a == b) = false) :
      Blurred (record a) (record b)
  | identified {a b : Item} {x y : Value} (ha : a.id? = some x) (hb : b.id? = some y)
      (ids : Blurred x y) : Blurred (record a) (record b)
  | head {a b : Value} {as bs : List Value} (first : Blurred a b)
      (rest : (list as == list bs) = true) : Blurred (list (a :: as)) (list (b :: bs))
  | tail {a b : Value} {as bs : List Value} (first : (a == b) = true)
      (rest : Blurred (list as) (list bs)) : Blurred (list (a :: as)) (list (b :: bs))
  | both {a b : Value} {as bs : List Value} (first : Blurred a b)
      (rest : Blurred (list as) (list bs)) : Blurred (list (a :: as)) (list (b :: bs))

/-- **Blurred values are not equal.** -/
theorem Blurred.ne {a b : Value} (h : Blurred a b) : (a == b) = false := by
  induction h with
  | intFloat _ | floatInt _ => rfl
  | unidentified _ hne => exact hne
  | identified ha hb _ ih =>
    rw [Bool.eq_false_iff] at ih ⊢
    exact fun h => ih ((Item.beq_identified ha hb).1 h)
  | head _ _ ih | both _ _ ih _ =>
    rw [Bool.eq_false_iff] at ih ⊢
    exact fun h => ih (beq_cons.1 h).1
  | tail _ _ ih =>
    rw [Bool.eq_false_iff] at ih ⊢
    exact fun h => ih (beq_cons.1 h).2

/-! ## What ties -/

theorem order_identified {a b : Item} {x y : Value} (ha : a.id? = some x) (hb : b.id? = some y) :
    (record a).order (record b) = x.order y := by rw [order_record, ha, hb]

theorem order_unidentified {a b : Item} (h : a.id? = none ∨ b.id? = none) :
    (record a).order (record b) = .eq := by
  rw [order_record]
  rcases h with h | h <;> rw [h]
  cases a.id? <;> rfl

/-- **Blurred values tie.** -/
theorem Blurred.order_eq {a b : Value} (h : Blurred a b) : a.order b = .eq := by
  induction h with
  | intFloat h | floatInt h => exact h
  | unidentified h _ => exact order_unidentified h
  | identified ha hb _ ih => rw [order_identified ha hb, ih]
  | head _ rest ih => exact orderValues_cons_eq.2 ⟨ih, order_of_same _ _ rest⟩
  | tail first _ ih => exact orderValues_cons_eq.2 ⟨order_of_same _ _ first, ih⟩
  | both _ _ ih ihrest => exact orderValues_cons_eq.2 ⟨ih, ihrest⟩

theorem blurred_of_orderValues : ∀ {as bs : List Value},
    (∀ a ∈ as, ∀ b : Value, a.order b = .eq → (a == b) = true ∨ Blurred a b) →
      orderValues as bs = .eq → (list as == list bs) = true ∨ Blurred (list as) (list bs)
  | [], [], _, _ => .inl rfl
  | [], _ :: _, _, h | _ :: _, [], _, h => by cases h
  | a :: as, b :: bs, ih, h => by
    obtain ⟨hhead, htail⟩ := List.forall_mem_cons.1 ih
    obtain ⟨hab, h⟩ := orderValues_cons_eq.1 h
    have hrest := blurred_of_orderValues htail h
    rcases hhead b hab with heq | hblur
    · exact hrest.imp (fun hr => beq_cons.2 ⟨heq, hr⟩) (.tail heq)
    · exact .inr (hrest.elim (.head hblur) (.both hblur))

theorem blurred_of_order_record {a b : Item}
    (ih : ∀ x, a.id? = some x → ∀ y : Value, x.order y = .eq → (x == y) = true ∨ Blurred x y)
    (h : (record a).order (record b) = .eq) :
    (record a == record b) = true ∨ Blurred (record a) (record b) := by
  rcases Item.id?_cases a b with hid | ⟨x, y, ha, hb⟩
  · cases heq : a == b with
    | true => exact .inl heq
    | false => exact .inr (.unidentified hid heq)
  · rw [order_identified ha hb] at h
    exact (ih x ha y h).imp (Item.beq_identified ha hb).2 (.identified ha hb)

/-- **Values that tie are equal or blurred.** -/
theorem blurred_of_order (a : Value) :
    ∀ b : Value, a.order b = .eq → (a == b) = true ∨ Blurred a b := by
  induction a using Value.induction with
  | null =>
    intro b h
    cases b with
    | null => exact .inl rfl
    | _ => cases h
  | bool x =>
    intro b h
    cases b with
    | bool y =>
      obtain rfl : x = y := Std.LawfulEqOrd.eq_of_compare h
      exact .inl (same_self _)
    | _ => cases h
  | int i =>
    intro b h
    cases b with
    | int j =>
      obtain rfl : i = j := Int64.toInt_inj.1 (Std.LawfulEqOrd.eq_of_compare h)
      exact .inl (same_self _)
    | float d => exact .inr (.intFloat h)
    | _ => cases h
  | float d =>
    intro b h
    cases b with
    | int i => exact .inr (.floatInt h)
    | float e =>
      obtain rfl : d = e := Double.totalCompare_eq_iff.1 h
      exact .inl (same_self _)
    | _ => cases h
  | string s =>
    intro b h
    cases b with
    | string t =>
      obtain rfl : s = t := Std.LawfulEqOrd.eq_of_compare h
      exact .inl (same_self _)
    | _ => cases h
  | list as ih =>
    intro b h
    cases b with
    | list bs => exact blurred_of_orderValues ih h
    | _ => cases h
  | record fields ih =>
    intro b h
    cases b with
    | record b =>
      exact blurred_of_order_record (fun x hx => ih (idField, x) (Record.mem_of_lookup hx)) h
    | _ => cases h

/-- **Two values tie just when they are equal or blurred.** -/
theorem order_eq_iff {a b : Value} : a.order b = .eq ↔ (a == b) = true ∨ Blurred a b :=
  ⟨blurred_of_order a b, fun h => h.elim (order_of_same a b) Blurred.order_eq⟩

end Value

/-! ## Items -/

namespace Item

def IdsBlurred (a b : Item) : Prop := ∃ x ∈ a.id?, ∃ y ∈ b.id?, Value.Blurred x y

theorem compare?_identified {a b : Item} {x y : Value} (ha : a.id? = some x)
    (hb : b.id? = some y) : a.compare? b = some (x.order y) := by rw [compare?, ha, hb]

theorem compare?_unidentified {a b : Item} (h : a.id? = none ∨ b.id? = none) :
    a.compare? b = if a == b then some .eq else none := by
  rw [compare?]
  rcases h with h | h <;> rw [h]
  · rfl
  · cases a.id? <;> rfl

theorem idsBlurred_iff {a b : Item} {x y : Value} (ha : a.id? = some x) (hb : b.id? = some y) :
    a.IdsBlurred b ↔ Value.Blurred x y := by simp [IdsBlurred, ha, hb]

theorem not_idsBlurred {a b : Item} (h : a.id? = none ∨ b.id? = none) : ¬ a.IdsBlurred b := by
  rintro ⟨x, hx, y, hy, -⟩
  rcases h with h | h
  · exact nomatch h.symm.trans hx
  · exact nomatch h.symm.trans hy

theorem IdsBlurred.ne {a b : Item} (h : a.IdsBlurred b) : (a == b) = false := by
  obtain ⟨x, hx, y, hy, hxy⟩ := h
  exact (Value.Blurred.identified hx hy hxy).ne

/-- **Two items compare as equal just when they are equal or their identifiers are blurred.** -/
theorem compare?_eq_some_iff {a b : Item} :
    a.compare? b = some .eq ↔ (a == b) = true ∨ a.IdsBlurred b := by
  rcases id?_cases a b with hid | ⟨x, y, ha, hb⟩
  · rw [compare?_unidentified hid, or_iff_left (not_idsBlurred hid)]
    cases a == b <;> simp
  · rw [compare?_identified ha hb, Option.some_inj, Value.order_eq_iff, beq_identified ha hb,
      idsBlurred_iff ha hb]

/--
**Comparison and equality take the same items for equal, except where identifiers are blurred**: items
that are equal compare as equal, and items that compare as equal are equal just as long as their
identifiers are not blurred.
-/
theorem compare?_eq_iff_beq (a b : Item) :
    ((a == b) = true → a.compare? b = some .eq) ∧
      ((a.compare? b = some .eq → (a == b) = true) ↔ ¬ a.IdsBlurred b) := by
  refine ⟨fun h => compare?_eq_some_iff.2 (.inl h), fun h hblur => ?_, fun h he => ?_⟩
  · have heq := h (compare?_eq_some_iff.2 (.inr hblur))
    rw [hblur.ne] at heq
    cases heq
  · exact (compare?_eq_some_iff.1 he).resolve_right h

/-- `1` and `1.0` are identifiers that compare as equal and are not, and so are two different
records. -/
theorem compare?_blurred :
    let one : Item := .ofId (.int 1)
    let same : Item := .ofId (.float ⟨0x3ff0000000000000⟩)
    let low : Item := .ofId (.record ⟨[("x", .int 1)]⟩)
    let high : Item := .ofId (.record ⟨[("x", .int 2)]⟩)
    (one.compare? same = some .eq ∧ (one == same) = false) ∧
      low.compare? high = some .eq ∧ (low == high) = false := by decide +kernel

end Item

end GraphQuery
