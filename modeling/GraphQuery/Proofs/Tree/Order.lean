import GraphQuery.Proofs.Tree.Apart
import GraphQuery.Value.Order
/-!
# The order of paths

Paths are ordered lexicographically, so sorting puts them in order (`pairwise_stableSort`).  Taking
an item out moves only paths that come later, hence items that are taken out from the last one to
the first never move each other (`Path.shift?_of_order`).
-/

namespace GraphQuery

/-! ## Sorting -/

section

variable {α : Type} {order : α → α → Ordering} [Std.TransCmp order]

theorem pairwise_insertBack (x : α) : ∀ {ys : List α},
    ys.Pairwise (fun a b => (order b a).isLE = true) →
      (insertBack order x ys).Pairwise fun a b => (order b a).isLE = true
  | [], _ => List.pairwise_singleton _ _
  | y :: ys, h => by
    obtain ⟨hy, hys⟩ := List.pairwise_cons.1 h
    rw [insertBack]
    split
    · rename_i hxy
      refine List.pairwise_cons.2 ⟨fun z hz => ?_, pairwise_insertBack x hys⟩
      rcases List.mem_cons.1 ((perm_insertBack order x ys).mem_iff.1 hz) with rfl | hz
      · exact Ordering.isLE_of_eq_lt hxy
      · exact hy z hz
    · rename_i hxy
      have hs : order y x = (order x y).swap := Std.OrientedCmp.eq_swap
      have hyx : (order y x).isLE = true := by
        rw [hs]
        cases ho : order x y with
        | lt => exact absurd ho hxy
        | eq => rfl
        | gt => rfl
      refine List.pairwise_cons.2 ⟨fun z hz => ?_, h⟩
      rcases List.mem_cons.1 hz with rfl | hz
      · exact hyx
      · exact Std.TransCmp.isLE_trans (hy z hz) hyx

variable (order) in
/-- **Sorting puts a list in order.** -/
theorem pairwise_stableSort (xs : List α) :
    (stableSort order xs).Pairwise fun a b => (order a b).isLE = true := by
  have go (sorted rest : List α) (h : sorted.Pairwise fun a b => (order b a).isLE = true) :
      (rest.foldl (fun sorted x => insertBack order x sorted) sorted).Pairwise
        fun a b => (order b a).isLE = true := by
    induction rest generalizing sorted with
    | nil => exact h
    | cons x rest ih => exact ih _ (pairwise_insertBack x h)
  exact List.pairwise_reverse.2 (go [] xs .nil)

end

/-! ## Paths -/

namespace Step

def rank : Step → Nat
  | entry _ => 0
  | item _ => 1
  | field _ => 2

def position : Step → Nat
  | entry n | item n => n
  | field _ => 0

def fieldName : Step → String
  | field name => name
  | _ => ""

theorem order_eq : order =
    compareLex (compareOn rank) (compareLex (compareOn position) (compareOn fieldName)) := by
  funext a b
  cases a <;> cases b <;> simp [order, compareLex, compareOn, rank, position, fieldName] <;> rfl

instance : Std.TransCmp order := by
  rw [order_eq]
  infer_instance

theorem eq_of_order : ∀ {a b : Step}, a.order b = .eq → a = b
  | entry _, entry _, h => congrArg entry (Std.compare_eq_iff_eq.1 h)
  | item _, item _, h => congrArg item (Std.compare_eq_iff_eq.1 h)
  | field _, field _, h => congrArg field (Std.compare_eq_iff_eq.1 h)
  | entry _, item _, h | entry _, field _, h | item _, entry _, h | item _, field _, h
  | field _, entry _, h | field _, item _, h => by cases h

instance : Std.LawfulEqCmp order := ⟨eq_of_order⟩

theorem order_self (s : Step) : s.order s = .eq := Std.ReflCmp.compare_self

end Step

namespace Path

theorem order_eq : ∀ p q : Path, p.order q = List.compareLex Step.order p q
  | [], [] | [], _ :: _ | _ :: _, [] => rfl
  | a :: as, b :: bs => by
    rw [order, List.compareLex, order_eq as bs]
    cases a.order b <;> rfl

instance : Std.TransCmp order := by
  rw [funext fun p => funext (order_eq p)]
  infer_instance

instance : Std.LawfulEqCmp order := by
  rw [funext fun p => funext (order_eq p)]
  infer_instance

theorem order_self (p : Path) : p.order p = .eq := Std.ReflCmp.compare_self

theorem order_cons_self (s : Step) (p q : Path) : order (s :: p) (s :: q) = order p q := by
  rw [order, s.order_self]

theorem isLE_order_item {j k : Nat} (h : j ≤ k) (p : Path) :
    (order [.item j] (.item k :: p)).isLE = true := by
  rw [order]
  rcases Nat.eq_or_lt_of_le h with rfl | hlt
  · rw [Step.order_self]
    cases p <;> rfl
  · have hs : (Step.item j).order (.item k) = .lt := Nat.compare_eq_lt.2 hlt
    rw [hs]
    rfl

theorem not_isLE_of_apart {p q : Path} (h : p.Apart q) (ho : (q.order p).isLE = true) :
    (p.order q).isLE = false := by
  rw [← Bool.not_eq_true]
  intro ho'
  rw [Std.LawfulEqCmp.eq_of_compare (Std.OrientedCmp.isLE_antisymm ho' ho)] at h
  exact h.ne rfl

/-- **Taking an item out moves no path that comes before it.** -/
theorem shift?_of_order : ∀ {r p : Path}, r.Apart p → (p.order r).isLE = true →
    shift? r p = some p
  | [], p, h, _ => absurd h (not_apart_nil p)
  | _ :: _, [], h, _ => absurd h.symm (not_apart_nil _)
  | g :: r, s :: p, h, ho => by
    rw [order] at ho
    by_cases hr : r = []
    · subst hr
      have hne : s ≠ g := by
        rintro rfl
        exact not_apart_nil p (apart_cons_self.1 h)
      rw [shift?_singleton, if_neg hne]
      cases s with
      | item mine =>
        cases g with
        | item taken =>
          have hlt : ¬ taken < mine := fun hlt => by
            have hgt : Step.order (.item mine) (.item taken) = .gt := Nat.compare_eq_gt.2 hlt
            rw [hgt] at ho
            cases ho
          simp only [Step.moveUp, if_neg hlt]
        | _ => rfl
      | _ => rfl
    · rw [shift?_cons_cons g s hr]
      split
      · rename_i hgs
        subst hgs
        have hs : g.order g = .eq := Std.ReflCmp.compare_self
        rw [hs] at ho
        rw [shift?_of_order (apart_cons_self.1 h) ho]
        rfl
      · rfl

end Path

end GraphQuery
