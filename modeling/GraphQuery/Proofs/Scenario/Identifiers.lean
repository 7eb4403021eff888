import Mathlib.Data.List.Perm.Basic
import GraphQuery.Proofs.Operation.Arrangement
import GraphQuery.Proofs.Operation.Grouping
import GraphQuery.Proofs.Value.Ties
import GraphQuery.Scenario.Expectation
/-!
# Identifiers in any order

An expectation of identifiers in any order sorts them and those that a step produced, and compares
the two lists.  What it accepts has the expected identifiers, in some arrangement
(`Value.Shuffled`).  The converse depends on the sorting order: every arrangement is accepted just
when the order tells the identifiers apart and does not turn among them
(`Expectation.verify_idSet_iff`).
-/

namespace GraphQuery

/-! ## The order of what equality looks at -/

theorem essences_eq_map (vs : List Value) : essences vs = vs.map Value.essence := by
  induction vs with
  | nil => rfl
  | cons v rest ih => rw [essences, ih, List.map_cons]

theorem orderValues_essences {as : List Value}
    (h : ∀ a ∈ as, ∀ b : Value, a.essence.order b = a.order b) (bs : List Value) :
    Value.orderValues (essences as) bs = Value.orderValues as bs := by
  induction as generalizing bs with
  | nil => rfl
  | cons a as ih =>
    obtain ⟨ha, has⟩ := List.forall_mem_cons.1 h
    cases bs with
    | nil => rfl
    | cons b bs => rw [essences, Value.orderValues, Value.orderValues, ha, ih has]

namespace Value

theorem order_essence_left (a : Value) : ∀ b : Value, a.essence.order b = a.order b := by
  induction a using Value.induction with
  | null | bool _ | int _ | float _ | string _ => exact fun _ => rfl
  | list as ih =>
    intro b
    cases b with
    | list bs => exact orderValues_essences ih bs
    | _ => rfl
  | record fields ih =>
    intro b
    cases b with
    | record b =>
      rw [essence_record, order_record, order_record]
      simp only [Record.id?, Record.get?, lookup_essence]
      cases hid : Record.lookup idField fields with
      | none => rfl
      | some x =>
        cases Record.lookup idField b.fields with
        | none => rfl
        | some y => exact ih (idField, x) (Record.mem_of_lookup hid) y
    | _ => rfl

/-- **The sorting order depends only on what equality looks at.** -/
theorem order_essence (a b : Value) : a.essence.order b.essence = a.order b := by
  rw [order_essence_left, order_swap b.essence, order_essence_left, ← order_swap]

/-! ## Arrangements -/

/-- Whether one list is an arrangement of another one, equal values being taken for the same. -/
def Shuffled (as bs : List Value) : Prop :=
  ∃ cs, cs.Perm as ∧ List.Forall₂ (fun c b => (c == b) = true) cs bs

variable {as bs vs : List Value}

theorem forall₂_beq_iff :
    List.Forall₂ (fun a b => (a == b) = true) as bs ↔ as.map essence = bs.map essence := by
  have hrel : (fun a b : Value => (a == b) = true) = fun a b => a.essence = b.essence :=
    funext fun a => funext fun b => propext (same_iff a b)
  rw [hrel, ← List.forall₂_eq_eq_eq, List.forall₂_map_left_iff, List.forall₂_map_right_iff]

theorem shuffled_iff : Shuffled as bs ↔ (as.map essence).Perm (bs.map essence) := by
  constructor
  · rintro ⟨cs, hp, hcs⟩
    rw [← forall₂_beq_iff.1 hcs]
    exact (hp.map essence).symm
  · intro h
    obtain ⟨cs, hcs, hp⟩ : Relation.Comp (· = List.map essence ·) List.Perm (bs.map essence) as := by
      rw [List.eq_map_comp_perm]
      exact h.symm
    exact ⟨cs, hp, forall₂_beq_iff.2 hcs.symm⟩

theorem stableSort_essence (vs : List Value) :
    stableSort order (vs.map essence) = (stableSort order vs).map essence := by
  rw [stableSort_map]
  simp only [order_essence]

/-- **Sorted lists are equal when sorting makes the same list of what equality looks at.** -/
theorem sameValues_stableSort : sameValues (stableSort order as) (stableSort order bs) = true ↔
    stableSort order (as.map essence) = stableSort order (bs.map essence) := by
  rw [sameValues_iff, essences_eq_map, essences_eq_map, stableSort_essence, stableSort_essence]

structure Distinguished (vs : List Value) : Prop where
  unblurred : ∀ a ∈ vs, ∀ b ∈ vs, ¬ Blurred a b
  unknotted : ∀ a ∈ vs, ∀ b ∈ vs, ∀ c ∈ vs, ¬ Knot a b c

theorem ties_essence_iff : (∀ a ∈ vs.map essence, ∀ b ∈ vs.map essence, a.order b = .eq → a = b) ↔
    ∀ a ∈ vs, ∀ b ∈ vs, ¬ Blurred a b := by
  simp only [List.forall_mem_map, order_essence]
  refine forall₂_congr fun a _ => forall₂_congr fun b _ => ?_
  rw [← same_iff, order_eq_iff]
  constructor
  · intro h hblur
    have hne := hblur.ne
    rw [show (a == b) = true from h (.inr hblur)] at hne
    cases hne
  · exact fun h heq => heq.resolve_right h

theorem transOn_iff : TransOn order vs ↔ ∀ a ∈ vs, ∀ b ∈ vs, ∀ c ∈ vs, ¬ Knot a b c := by
  constructor
  · intro h a ha b hb c hc hknot
    obtain ⟨hab, hbc, hca, hstrict⟩ := hknot.circles
    have := h.transCmp
    exact hstrict (eq_of_circle (fun x y : { v // v ∈ vs } => x.1.order y.1)
      (x := ⟨a, ha⟩) (y := ⟨b, hb⟩) (z := ⟨c, hc⟩) hab hbc hca)
  · exact fun h a ha b hb c hc => order_trans_of_not_knot (h a ha b hb c hc)

theorem transOn_essence : TransOn order (vs.map essence) ↔ TransOn order vs := by
  simp only [TransOn, List.forall_mem_map, order_essence]

/-- **All arrangements of some values are sorted alike just when the values are distinguished.** -/
theorem sameValues_stableSort_iff :
    (∀ ws, Shuffled vs ws → sameValues (stableSort order vs) (stableSort order ws) = true) ↔
      Distinguished vs := by
  have hsort : (∀ es, (vs.map essence).Perm es →
      stableSort order es = stableSort order (vs.map essence)) ↔ Distinguished vs := by
    rw [stableSort_perm_iff, ties_essence_iff, transOn_essence, transOn_iff]
    exact ⟨fun ⟨h, h'⟩ => ⟨h, h'⟩, fun ⟨h, h'⟩ => ⟨h, h'⟩⟩
  rw [← hsort]
  constructor
  · intro h es hp
    -- an arrangement of what equality looks at is that of an arrangement of the values
    obtain ⟨ws, rfl, hws⟩ : Relation.Comp (· = List.map essence ·) List.Perm es vs := by
      rw [List.eq_map_comp_perm]
      exact hp.symm
    exact (sameValues_stableSort.1 (h ws (shuffled_iff.2 hp))).symm
  · exact fun h ws hws => sameValues_stableSort.2 (h _ (shuffled_iff.1 hws)).symm

end Value

namespace Expectation

open Value

theorem require_eq_ok {holds : Bool} {otherwise : Mismatch} :
    require holds otherwise = .ok () ↔ holds = true := by
  cases holds <;> simp [require]

theorem verify_idSet {language : PatternLanguage} {o : Outcome} {expected : List Value} :
    ({ idSet := some expected } : Expectation).verify language (.ok o) = .ok () ↔
      sameValues (stableSort order o.ids) (stableSort order expected) = true := by
  have hrequire : require (sameValues (stableSort order o.ids) (stableSort order expected))
      (.idSet (stableSort order expected) (stableSort order o.ids)) = .ok () ↔ _ := require_eq_ok
  rw [← hrequire]
  cases h : require (sameValues (stableSort order o.ids) (stableSort order expected))
    (.idSet (stableSort order expected) (stableSort order o.ids)) <;>
  simp [verify, checkOutput, checkCounts, checkRows, checkColumns, given, h, bind, Except.bind]

/--
**An expectation of identifiers in any order accepts arrangements only, and it accepts all of them
just when the sorting order tells the identifiers apart.**
-/
theorem verify_idSet_iff (language : PatternLanguage) (o : Outcome) :
    (∀ expected, ({ idSet := some expected } : Expectation).verify language (.ok o) = .ok () →
      Shuffled o.ids expected) ∧
    ((∀ expected, ({ idSet := some expected } : Expectation).verify language (.ok o) = .ok () ↔
      Shuffled o.ids expected) ↔ Distinguished o.ids) := by
  have hsound : ∀ expected,
      ({ idSet := some expected } : Expectation).verify language (.ok o) = .ok () →
        Shuffled o.ids expected := by
    intro expected h
    have hs := sameValues_stableSort.1 (verify_idSet.1 h)
    have hp := (perm_stableSort order (o.ids.map essence)).symm
    rw [hs] at hp
    exact shuffled_iff.2 (hp.trans (perm_stableSort order _))
  refine ⟨hsound, ?_⟩
  rw [← sameValues_stableSort_iff]
  refine forall_congr' fun expected => ?_
  rw [← @verify_idSet language]
  exact ⟨fun h => h.2, fun h => ⟨hsound expected, h⟩⟩

/-- `1` and `1.0` tie, so they stay in the order in which they come, and they are not equal. -/
theorem verify_idSet_blurred :
    let one : Value := .int 1
    let same : Value := .float ⟨0x3ff0000000000000⟩
    let o : Outcome := ⟨[.record (.ofId one), .record (.ofId same)], .null⟩
    Shuffled o.ids [same, one] ∧ ∀ language,
      ({ idSet := some [same, one] } : Expectation).verify language (.ok o) =
        .error (.idSet [same, one] [one, same]) :=
  ⟨⟨_, .swap _ _ _, forall₂_beq_iff.2 rfl⟩, fun _ => rfl⟩

end Expectation

end GraphQuery
