import GraphQuery.Tree.Path
/-!
# Paths that lie apart

Two paths lie apart when neither begins with the other.  What is done at a path leaves everything
that lies apart from it where it is, and taking an item out keeps paths apart that were
(`apart_of_shift?`).
-/

namespace GraphQuery

def Step.moveUp (s gone : Step) : Step :=
  match s, gone with
  | .item mine, .item taken => if taken < mine then .item (mine - 1) else .item mine
  | s, _ => s

theorem Step.moveUp_ne {g a b : Step} (ha : a ≠ g) (hb : b ≠ g) (hab : a ≠ b) :
    a.moveUp g ≠ b.moveUp g := by
  unfold Step.moveUp
  grind

namespace Path

/-- Neither path begins with the other. -/
def Apart (p q : Path) : Prop := ¬ p <+: q ∧ ¬ q <+: p

instance : DecidableRel Apart := fun p q => inferInstanceAs (Decidable (¬ p <+: q ∧ ¬ q <+: p))

theorem Apart.symm {p q : Path} (h : Apart p q) : Apart q p := ⟨h.2, h.1⟩

theorem Apart.ne {p q : Path} (h : Apart p q) : p ≠ q := by
  rintro rfl
  exact h.1 (List.prefix_refl p)

theorem not_apart_nil (q : Path) : ¬ Apart [] q := fun h => h.1 List.nil_prefix

theorem apart_cons {a b : Step} {p q : Path} : Apart (a :: p) (b :: q) ↔ a ≠ b ∨ Apart p q := by
  unfold Apart
  rw [List.cons_prefix_cons, List.cons_prefix_cons]
  by_cases h : a = b
  · simp [h]
  · simp [h, Ne.symm h]

theorem apart_cons_self {a : Step} {p q : Path} : Apart (a :: p) (a :: q) ↔ Apart p q := by
  simp [apart_cons]

theorem apart_append {o p q : Path} : Apart (o ++ p) (o ++ q) ↔ Apart p q := by
  induction o with
  | nil => rfl
  | cons a o ih => rw [List.cons_append, List.cons_append, apart_cons_self, ih]

theorem Apart.append {p q : Path} (h : Apart p q) (r s : Path) : Apart (p ++ r) (q ++ s) := by
  induction p generalizing q with
  | nil => exact absurd h (not_apart_nil q)
  | cons a p ih =>
    cases q with
    | nil => exact absurd h.symm (not_apart_nil _)
    | cons b q =>
      rw [List.cons_append, List.cons_append, apart_cons]
      exact (apart_cons.1 h).imp id ih

theorem prefix_or_apart (p q : Path) : p <+: q ∨ q <+: p ∨ Apart p q := by
  by_cases h : p <+: q
  · exact .inl h
  · by_cases h' : q <+: p
    · exact .inr (.inl h')
    · exact .inr (.inr ⟨h, h'⟩)

/-! ## Paths after something was taken out -/

@[simp] theorem shift?_nil_left (p : Path) : shift? [] p = none := by cases p <;> rfl

@[simp] theorem shift?_nil_right {r : Path} (h : r ≠ []) : shift? r [] = some [] := by
  cases r with
  | nil => exact absurd rfl h
  | cons a r => cases r <;> rfl

theorem shift?_singleton (g s : Step) (p : Path) :
    shift? [g] (s :: p) = if s = g then none else some (s.moveUp g :: p) := by
  simp only [shift?]
  split
  · rfl
  · cases s <;> cases g <;> try rfl
    simp only [Step.moveUp]
    split <;> rfl

theorem shift?_cons_cons (g s : Step) {r : Path} (h : r ≠ []) (p : Path) :
    shift? (g :: r) (s :: p) = if g = s then (shift? r p).map (s :: ·) else some (s :: p) := by
  cases r with
  | nil => exact absurd rfl h
  | cons a r => rfl

theorem shift?_eq_none {r p : Path} : shift? r p = none ↔ r <+: p := by
  induction r generalizing p with
  | nil => simp
  | cons g r ih =>
    cases p with
    | nil => simp
    | cons s p =>
      rw [List.cons_prefix_cons]
      by_cases hr : r = []
      · subst hr
        rw [shift?_singleton]
        simp [eq_comm]
      · rw [shift?_cons_cons g s hr]
        by_cases hs : g = s <;> simp [hs, ih]

theorem shift?_append (o : Path) {r : Path} (h : r ≠ []) (p : Path) :
    shift? (o ++ r) (o ++ p) = (shift? r p).map (o ++ ·) := by
  induction o with
  | nil => simp
  | cons a o ih =>
    rw [List.cons_append, List.cons_append,
      shift?_cons_cons a a (List.append_ne_nil_of_right_ne_nil o h), if_pos rfl, ih, Option.map_map]
    rfl

theorem shift?_of_apart {o q : Path} (h : Apart o q) {r : Path} (hr : r ≠ []) :
    shift? (o ++ r) q = some q := by
  induction o generalizing q with
  | nil => exact absurd h (not_apart_nil q)
  | cons a o ih =>
    cases q with
    | nil => exact absurd h.symm (not_apart_nil _)
    | cons b q =>
      rw [List.cons_append, shift?_cons_cons a b (List.append_ne_nil_of_right_ne_nil o hr)]
      split
      · rename_i hab
        subst hab
        rw [ih (apart_cons_self.1 h)]
        rfl
      · rfl

theorem shift?_append_self (q : Path) {r : Path} (hr : r ≠ []) : shift? (q ++ r) q = some q := by
  induction q with
  | nil => exact shift?_nil_right hr
  | cons a q ih =>
    rw [List.cons_append, shift?_cons_cons a a (List.append_ne_nil_of_right_ne_nil _ hr), if_pos rfl,
      ih]
    rfl

theorem shift?_of_not_passing {o q : Path} (h : ¬ o <+: q) {r : Path} (hr : r ≠ []) :
    shift? (o ++ r) q = some q := by
  rcases prefix_or_apart o q with ho | ⟨z, rfl⟩ | ha
  · exact absurd ho h
  · rw [List.append_assoc]
    exact shift?_append_self q (List.append_ne_nil_of_right_ne_nil z hr)
  · exact shift?_of_apart ha hr

/-- **Taking an item out keeps paths apart that were.** -/
theorem apart_of_shift? {r p q p' q' : Path} (h : Apart p q) (hp : shift? r p = some p')
    (hq : shift? r q = some q') : Apart p' q' := by
  induction r generalizing p q p' q' with
  | nil => simp at hp
  | cons g r ih =>
    cases p with
    | nil => exact absurd h (not_apart_nil q)
    | cons a p =>
      cases q with
      | nil => exact absurd h.symm (not_apart_nil _)
      | cons b q =>
        by_cases hr : r = []
        · subst hr
          rw [shift?_singleton] at hp hq
          split at hp
          · cases hp
          split at hq
          · cases hq
          rename_i ha hb
          cases hp
          cases hq
          exact apart_cons.2 ((apart_cons.1 h).imp (Step.moveUp_ne ha hb) id)
        · rw [shift?_cons_cons g _ hr] at hp hq
          split at hp
          · rename_i ha
            obtain ⟨p₁, hp₁, rfl⟩ := Option.map_eq_some_iff.1 hp
            split at hq
            · rename_i hb
              obtain ⟨q₁, hq₁, rfl⟩ := Option.map_eq_some_iff.1 hq
              rw [apart_cons] at h ⊢
              exact h.imp id fun h => ih h hp₁ hq₁
            · rename_i hb
              cases hq
              exact apart_cons.2 (.inl (ha ▸ hb))
          · rename_i ha
            cases hp
            split at hq
            · rename_i hb
              obtain ⟨q₁, hq₁, rfl⟩ := Option.map_eq_some_iff.1 hq
              exact apart_cons.2 (.inl (hb ▸ Ne.symm ha))
            · cases hq
              exact h

theorem eq_or_apart_of_mem {q : Path} : ∀ {points : List Path}, points.Pairwise Apart →
    q ∈ points → ∀ p ∈ points, p = q ∨ p.Apart q
  | [], _, hq, _, _ => by cases hq
  | r :: rest, h, hq, p, hp => by
    obtain ⟨hr, hrest⟩ := List.pairwise_cons.1 h
    rcases List.mem_cons.1 hq with rfl | hq'
    · rcases List.mem_cons.1 hp with rfl | hp'
      · exact .inl rfl
      · exact .inr (hr p hp').symm
    · rcases List.mem_cons.1 hp with rfl | hp'
      · exact .inr (hr q hq')
      · exact eq_or_apart_of_mem hrest hq' p hp'

end Path

end GraphQuery
