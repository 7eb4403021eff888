import Mathlib.Data.List.Basic
import GraphQuery.Proofs.Operation.Sorting
/-!
# Sorting different arrangements of a list

Sorting moves an element to the left past those only that it lies strictly below.  So whatever
stands in a sorted list before the element that was the first one lies below that element
(`stableSort_head`).  It follows that two arrangements of a list may be sorted to different lists,
unless the comparison is a linear order on its elements (`stableSort_perm_iff`).
-/

namespace GraphQuery

variable {α : Type} {order : α → α → Ordering}

theorem insertBack_split {a : α} (x : α) {before : List α} (h : ∀ y ∈ before, order y a = .lt) :
    ∀ after : List α, ∃ after' before', insertBack order x (after ++ a :: before) =
      after' ++ a :: before' ∧ ∀ y ∈ before', order y a = .lt
  | [] => by
    rw [List.nil_append, insertBack]
    split
    · rename_i hxa
      refine ⟨[], insertBack order x before, rfl, fun y hy => ?_⟩
      rcases List.mem_cons.1 ((perm_insertBack order x before).mem_iff.1 hy) with rfl | hy
      · exact hxa
      · exact h y hy
    · exact ⟨[x], before, rfl, h⟩
  | y :: after => by
    rw [List.cons_append, insertBack]
    split
    · obtain ⟨after', before', he, hb⟩ := insertBack_split x h after
      exact ⟨y :: after', before', by rw [he, List.cons_append], hb⟩
    · exact ⟨x :: y :: after, before, rfl, h⟩

variable (order) in
/-- **Before the element that was the first one stands only what lies below it.** -/
theorem stableSort_head (a : α) (rest : List α) : ∃ before after,
    stableSort order (a :: rest) = before ++ a :: after ∧ ∀ y ∈ before, order y a = .lt := by
  have go (after before todo : List α) (h : ∀ y ∈ before, order y a = .lt) :
      ∃ after' before', todo.foldl (fun sorted x => insertBack order x sorted)
        (after ++ a :: before) = after' ++ a :: before' ∧ ∀ y ∈ before', order y a = .lt := by
    induction todo generalizing after before with
    | nil => exact ⟨after, before, rfl, h⟩
    | cons x todo ih =>
      obtain ⟨after', before', he, hb⟩ := insertBack_split x h after
      rw [List.foldl_cons, he]
      exact ih after' before' hb
  obtain ⟨after, before, he, hb⟩ := go [] [] rest fun _ h => absurd h List.not_mem_nil
  refine ⟨before.reverse, after.reverse, ?_, fun y hy => hb y (List.mem_reverse.1 hy)⟩
  have hs : stableSort order (a :: rest) = (after ++ a :: before).reverse := congrArg List.reverse he
  rw [hs, List.reverse_append, List.reverse_cons, List.append_assoc, List.singleton_append]

section

variable [Std.OrientedCmp order] {xs : List α} {a b : α}

theorem idxOf_le_of_stableSort_perm [DecidableEq α]
    (h : ∀ ys, xs.Perm ys → stableSort order ys = stableSort order xs) (ha : a ∈ xs)
    (hba : order b a ≠ .lt) : (stableSort order xs).idxOf a ≤ (stableSort order xs).idxOf b := by
  obtain ⟨front, back, rfl⟩ := List.append_of_mem ha
  obtain ⟨before, after, he, hb⟩ := stableSort_head order a (front ++ back)
  have haa : order a a = .eq := Std.ReflCmp.compare_self
  rw [← h _ List.perm_middle, he,
    List.idxOf_append_of_notMem fun hm => by simp [hb a hm] at haa,
    List.idxOf_append_of_notMem fun hm => hba (hb b hm), List.idxOf_cons_self]
  omega

theorem stableSort_eq_of_perm {ys : List α} (hp : xs.Perm ys)
    (hties : ∀ a ∈ xs, ∀ b ∈ xs, order a b = .eq → a = b) (htrans : TransOn order xs) :
    stableSort order ys = stableSort order xs := by
  have hx := perm_stableSort order xs
  have hy := (perm_stableSort order ys).trans hp.symm
  have htrans' : TransOn order ys := fun a ha b hb c hc =>
    htrans a (hp.mem_iff.2 ha) b (hp.mem_iff.2 hb) c (hp.mem_iff.2 hc)
  refine List.Perm.eq_of_pairwise (fun a b ha hb hab hba => ?_) (pairwise_stableSort_of_trans htrans')
    (pairwise_stableSort_of_trans htrans) (hy.trans hx.symm)
  exact hties a (hy.mem_iff.1 ha) b (hx.mem_iff.1 hb) (eq_of_isLE hab hba)

/--
**All arrangements of a list are sorted to one list just when the comparison is a linear order on
it**: different elements do not tie, and it is transitive.
-/
theorem stableSort_perm_iff : (∀ ys, xs.Perm ys → stableSort order ys = stableSort order xs) ↔
    (∀ a ∈ xs, ∀ b ∈ xs, order a b = .eq → a = b) ∧ TransOn order xs := by
  classical
  refine ⟨fun h => ?_, fun ⟨hties, htrans⟩ ys hp => stableSort_eq_of_perm hp hties htrans⟩
  have hmem {a : α} (ha : a ∈ xs) : a ∈ stableSort order xs :=
    (perm_stableSort order xs).mem_iff.2 ha
  -- positions in the one sorted list take the place of the comparison, and those are linear
  have hpos {a b : α} (ha : a ∈ xs) (hab : (order a b).isLE = true) :
      (stableSort order xs).idxOf a ≤ (stableSort order xs).idxOf b := by
    have hs : order b a = (order a b).swap := Std.OrientedCmp.eq_swap
    exact idxOf_le_of_stableSort_perm h ha (by rw [hs]; cases h : order a b <;> simp_all)
  have heq {a b : α} (ha : a ∈ xs) (hab : (stableSort order xs).idxOf a =
      (stableSort order xs).idxOf b) : a = b := (List.idxOf_inj (hmem ha)).1 hab
  refine ⟨fun a ha b hb hab => heq ha ?_, fun a ha b hb c hc hab hbc => ?_⟩
  · have hba : order b a = .eq := Std.OrientedCmp.eq_symm hab
    exact Nat.le_antisymm (hpos ha (by simp [hab])) (hpos hb (by simp [hba]))
  · have hac := Nat.le_trans (hpos ha hab) (hpos hb hbc)
    cases ho : order c a with
    | lt =>
      obtain rfl := heq hc (Nat.le_antisymm (hpos hc (by simp [ho])) hac)
      rw [show order c c = .eq from Std.ReflCmp.compare_self] at ho
      cases ho
    | _ =>
      rw [show order a c = (order c a).swap from Std.OrientedCmp.eq_swap, ho]
      rfl

end

end GraphQuery
