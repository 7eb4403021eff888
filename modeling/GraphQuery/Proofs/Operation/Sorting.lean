import GraphQuery.Proofs.Tree.Order
/-!
# Stable sorting

Sorting keeps the order of elements that tie (`filter_stableSort`), and it puts a list in order as
soon as the comparison is transitive on the elements of that list (`pairwise_stableSort_of_trans`).
There is only one way to do both (`eq_of_ties`), so sorting by two comparisons, the second one where
the first one ties, is sorting by the second one and then by the first (`stableSort_compareLex`).
-/

namespace GraphQuery

variable {α β : Type} {order : α → α → Ordering}

/-! ## Elements that tie -/

theorem filter_insertBack {p : α → Bool} {x : α} : ∀ {ys : List α},
    (∀ y ∈ ys, p x = true → p y = true → order x y = .eq) →
      (insertBack order x ys).filter p = (x :: ys).filter p
  | [], _ => rfl
  | y :: ys, h => by
    have hy := h y List.mem_cons_self
    rw [insertBack]
    split
    · rename_i hxy
      rw [List.filter_cons, filter_insertBack fun z hz => h z (List.mem_cons_of_mem y hz),
        List.filter_cons, List.filter_cons, List.filter_cons]
      cases hpx : p x with
      | false => rfl
      | true =>
        cases hpy : p y with
        | false => rfl
        | true =>
          rw [hy hpx hpy] at hxy
          cases hxy
    · rfl

/-- **Elements that tie keep their order.** -/
theorem filter_stableSort {p : α → Bool} {xs : List α}
    (h : ∀ a ∈ xs, ∀ b ∈ xs, p a = true → p b = true → order a b = .eq) :
    (stableSort order xs).filter p = xs.filter p := by
  -- the list under construction runs downwards: elements that tie stand in it the last one first
  have go (sorted rest : List α) (h : ∀ a ∈ rest, ∀ b ∈ sorted ++ rest,
        p a = true → p b = true → order a b = .eq) :
      (rest.foldl (fun sorted x => insertBack order x sorted) sorted).filter p =
        (rest.reverse ++ sorted).filter p := by
    induction rest generalizing sorted with
    | nil => rfl
    | cons x rest ih =>
      have hx : ∀ y ∈ sorted, p x = true → p y = true → order x y = .eq := fun y hy =>
        h x List.mem_cons_self y (List.mem_append_left _ hy)
      rw [List.foldl_cons, ih, List.filter_append, filter_insertBack hx, ← List.filter_append,
        List.reverse_cons, List.append_assoc, List.singleton_append]
      intro a ha b hb
      refine h a (List.mem_cons_of_mem x ha) b ?_
      rcases List.mem_append.1 hb with hb | hb
      · rcases List.mem_cons.1 ((perm_insertBack order x sorted).mem_iff.1 hb) with rfl | hb
        · exact List.mem_append_right _ List.mem_cons_self
        · exact List.mem_append_left _ hb
      · exact List.mem_append_right _ (List.mem_cons_of_mem x hb)
  rw [stableSort, List.filter_reverse, go [] xs h, List.append_nil, List.filter_reverse,
    List.reverse_reverse]

/-! ## Comparisons that are transitive on a list only -/

theorem insertBack_map (f : β → α) (x : β) : ∀ ys : List β,
    insertBack order (f x) (ys.map f) = (insertBack (fun a b => order (f a) (f b)) x ys).map f
  | [] => rfl
  | y :: ys => by
    rw [List.map_cons, insertBack, insertBack, insertBack_map f x ys]
    split <;> rfl

theorem stableSort_map (f : β → α) (xs : List β) :
    stableSort order (xs.map f) = (stableSort (fun a b => order (f a) (f b)) xs).map f := by
  have go (sorted rest : List β) :
      (rest.map f).foldl (fun sorted x => insertBack order x sorted) (sorted.map f) =
        (rest.foldl (fun sorted x => insertBack (fun a b => order (f a) (f b)) x sorted)
          sorted).map f := by
    induction rest generalizing sorted with
    | nil => rfl
    | cons x rest ih => rw [List.map_cons, List.foldl_cons, insertBack_map, ih, List.foldl_cons]
  rw [stableSort, stableSort, List.map_reverse, ← go]
  rfl

def TransOn (order : α → α → Ordering) (xs : List α) : Prop :=
  ∀ a ∈ xs, ∀ b ∈ xs, ∀ c ∈ xs,
    (order a b).isLE = true → (order b c).isLE = true → (order a c).isLE = true

instance (order : α → α → Ordering) (xs : List α) : Decidable (TransOn order xs) :=
  inferInstanceAs (Decidable (∀ a ∈ xs, ∀ b ∈ xs, ∀ c ∈ xs,
    (order a b).isLE = true → (order b c).isLE = true → (order a c).isLE = true))

theorem TransOn.transCmp [Std.OrientedCmp order] {xs : List α} (h : TransOn order xs) :
    Std.TransCmp fun a b : { x // x ∈ xs } => order a.1 b.1 where
  eq_swap := Std.OrientedCmp.eq_swap
  isLE_trans := fun {a b c} => h a.1 a.2 b.1 b.2 c.1 c.2

/-- **Sorting puts a list in order on which the comparison is transitive.** -/
theorem pairwise_stableSort_of_trans [Std.OrientedCmp order] {xs : List α} (h : TransOn order xs) :
    (stableSort order xs).Pairwise fun a b => (order a b).isLE = true := by
  have := h.transCmp
  rw [← List.attach_map_subtype_val xs, stableSort_map]
  exact List.pairwise_map.2 (pairwise_stableSort _ xs.attach)

section

variable [Std.OrientedCmp order] {xs : List α} {a b c : α}

theorem eq_of_isLE (hab : (order a b).isLE = true) (hba : (order b a).isLE = true) :
    order a b = .eq := by
  have hs : order b a = (order a b).swap := Std.OrientedCmp.eq_swap
  cases h : order a b <;> simp_all

theorem TransOn.eq_of_eq (h : TransOn order xs) (ha : a ∈ xs) (hb : b ∈ xs) (hc : c ∈ xs)
    (hab : order a b = .eq) (hac : order a c = .eq) : order b c = .eq := by
  have hba : order b a = .eq := Std.OrientedCmp.eq_symm hab
  have hca : order c a = .eq := Std.OrientedCmp.eq_symm hac
  exact eq_of_isLE (h b hb a ha c hc (by simp [hba]) (by simp [hac]))
    (h c hc a ha b hb (by simp [hca]) (by simp [hab]))

/-- **Elements that tie stand in a sorted list in the order in which they stood before.** -/
theorem sublist_stableSort_iff (h : TransOn order xs) (ha : a ∈ xs) {l : List α}
    (hl : ∀ b ∈ l, order a b = .eq) : l.Sublist (stableSort order xs) ↔ l.Sublist xs := by
  have hp : (stableSort order xs).filter (fun b => decide (order a b = .eq)) =
      xs.filter fun b => decide (order a b = .eq) :=
    filter_stableSort fun b hb c hc hab hac =>
      h.eq_of_eq ha hb hc (of_decide_eq_true hab) (of_decide_eq_true hac)
  have hself : l.filter (fun b => decide (order a b = .eq)) = l :=
    List.filter_eq_self.2 fun b hb => decide_eq_true (hl b hb)
  constructor
  · intro hs
    rw [← hself]
    exact (hp ▸ hs.filter _).trans List.filter_sublist
  · intro hs
    rw [← hself]
    exact (hp.symm ▸ hs.filter _).trans List.filter_sublist

theorem eq_of_sublist_stableSort (h : TransOn order xs)
    (hs : [a, b, c].Sublist (stableSort order xs)) (hac : order a c = .eq) : order a b = .eq := by
  have hm : ∀ x ∈ [a, b, c], x ∈ xs := fun x hx =>
    (perm_stableSort order xs).mem_iff.1 (hs.subset hx)
  have hle := (pairwise_stableSort_of_trans h).sublist hs
  have hca : order c a = .eq := Std.OrientedCmp.eq_symm hac
  refine eq_of_isLE (List.rel_of_pairwise_cons hle (by simp))
    (h b (hm b (by simp)) c (hm c (by simp)) a (hm a (by simp)) ?_ (by simp [hca]))
  exact List.rel_of_pairwise_cons hle.of_cons (by simp)

end

/-! ## Two comparisons, one after the other -/

def ties (order : α → α → Ordering) (a b : α) : Bool := decide (order a b = .eq)

theorem ties_iff {a b : α} : ties order a b = true ↔ order a b = .eq := decide_eq_true_iff

theorem ties_self [Std.OrientedCmp order] (a : α) : ties order a a = true :=
  ties_iff.2 Std.ReflCmp.compare_self

theorem TransOn.filter_ties [Std.OrientedCmp order] {xs : List α} {a : α} (h : TransOn order xs)
    (ha : a ∈ xs) : (stableSort order xs).filter (ties order a) = xs.filter (ties order a) :=
  filter_stableSort fun _ hb _ hc hab hac => h.eq_of_eq ha hb hc (ties_iff.1 hab) (ties_iff.1 hac)

/-- **A list in order is determined by the order of its elements that tie.** -/
theorem eq_of_ties [Std.OrientedCmp order] : ∀ {xs ys : List α}, xs.Perm ys →
    xs.Pairwise (fun a b => (order a b).isLE = true) →
    ys.Pairwise (fun a b => (order a b).isLE = true) →
    (∀ a ∈ xs, xs.filter (ties order a) = ys.filter (ties order a)) → xs = ys
  | [], _, hp, _, _, _ => hp.nil_eq
  | x :: xs, [], hp, _, _, _ => absurd hp.symm (List.not_perm_nil_cons x xs)
  | x :: xs, y :: ys, hp, hx, hy, ht => by
    obtain ⟨hx, hxs⟩ := List.pairwise_cons.1 hx
    obtain ⟨hy, hys⟩ := List.pairwise_cons.1 hy
    have hself : ∀ a, (order a a).isLE = true := fun a =>
      Ordering.isLE_of_eq_eq Std.ReflCmp.compare_self
    -- each of the first elements lies at or below the other one
    have hxy : (order x y).isLE = true := by
      rcases List.mem_cons.1 (hp.mem_iff.2 List.mem_cons_self) with rfl | hm
      · exact hself y
      · exact hx y hm
    have hyx : (order y x).isLE = true := by
      rcases List.mem_cons.1 (hp.mem_iff.1 List.mem_cons_self) with rfl | hm
      · exact hself x
      · exact hy x hm
    have hfirst := ht x List.mem_cons_self
    rw [List.filter_cons_of_pos (ties_self x),
      List.filter_cons_of_pos (ties_iff.2 (eq_of_isLE hxy hyx))] at hfirst
    obtain ⟨rfl, -⟩ := List.cons.inj hfirst
    refine congrArg (x :: ·) (eq_of_ties ((List.perm_cons x).1 hp) hxs hys fun a ha => ?_)
    have hrest := ht a (List.mem_cons_of_mem x ha)
    rw [List.filter_cons, List.filter_cons] at hrest
    split at hrest
    · exact (List.cons.inj hrest).2
    · exact hrest

theorem compareLex_eq_iff {first second : α → α → Ordering} {a b : α} :
    compareLex first second a b = .eq ↔ first a b = .eq ∧ second a b = .eq := Ordering.then_eq_eq

section

variable {first second : α → α → Ordering} [Std.OrientedCmp first] [Std.OrientedCmp second]
  {xs : List α}

theorem TransOn.lex (h₁ : TransOn first xs) (h₂ : TransOn second xs) :
    TransOn (compareLex first second) xs := by
  intro a ha b hb c hc
  have := h₁.transCmp
  have := h₂.transCmp
  exact @Std.TransCmp.isLE_trans { x // x ∈ xs }
    (compareLex (fun a b => first a.1 b.1) fun a b => second a.1 b.1) _ ⟨a, ha⟩ ⟨b, hb⟩ ⟨c, hc⟩

/--
**Sorting by two comparisons is sorting by the second one and then by the first**, since that keeps
the order of what ties.
-/
theorem stableSort_compareLex (h₁ : TransOn first xs) (h₂ : TransOn second xs) :
    stableSort (compareLex first second) xs = stableSort first (stableSort second xs) := by
  have hlex := h₁.lex h₂
  have hmem : ∀ a, a ∈ stableSort second xs ↔ a ∈ xs := fun a => (perm_stableSort second xs).mem_iff
  have h₁' : TransOn first (stableSort second xs) := fun a ha b hb c hc =>
    h₁ a ((hmem a).1 ha) b ((hmem b).1 hb) c ((hmem c).1 hc)
  have hp := (perm_stableSort first (stableSort second xs)).trans (perm_stableSort second xs)
  refine eq_of_ties ((perm_stableSort _ xs).trans hp.symm) (pairwise_stableSort_of_trans hlex) ?_ ?_
  · refine List.pairwise_iff_forall_sublist.2 fun {a b} hs => ?_
    have hle := List.pairwise_iff_forall_sublist.1 (pairwise_stableSort_of_trans h₁') hs
    rw [compareLex]
    cases hab : first a b with
    | lt => rfl
    | gt => rw [hab] at hle; cases hle
    | eq =>
      -- what ties stands as the second comparison has put it
      have ha : a ∈ stableSort second xs :=
        (perm_stableSort first _).mem_iff.1 (hs.subset List.mem_cons_self)
      have hsame : ∀ c ∈ [a, b], first a c = .eq := by
        simp [hab, Std.ReflCmp.compare_self]
      exact List.pairwise_iff_forall_sublist.1 (pairwise_stableSort_of_trans h₂)
        ((sublist_stableSort_iff h₁' ha hsame).1 hs)
  · intro a ha
    have ha : a ∈ xs := (perm_stableSort _ xs).mem_iff.1 ha
    have hties : ∀ {b}, ties (compareLex first second) a b = true → first a b = .eq ∧ second a b = .eq :=
      fun h => compareLex_eq_iff.1 (ties_iff.1 h)
    rw [hlex.filter_ties ha, filter_stableSort, filter_stableSort]
    · exact fun b hb c hc hab hac => h₂.eq_of_eq ha hb hc (hties hab).2 (hties hac).2
    · exact fun b hb c hc hab hac =>
        h₁.eq_of_eq ha ((hmem b).1 hb) ((hmem c).1 hc) (hties hab).1 (hties hac).1

end

end GraphQuery
