import GraphQuery.Proofs.Operation.Origin
import Mathlib.Algebra.BigOperators.Intervals
import Mathlib.Data.Fin.Tuple.Basic
import Mathlib.Data.Fintype.BigOperators
import Mathlib.Data.Fintype.Fin
import Mathlib.Data.List.Perm.Basic
import Mathlib.Data.Nat.Factorial.Basic
/-!
# Uniform samples

There is a sample of `k` elements if a vector may hold so many.  Out of more than `k` elements it is
made by one draw for every element behind the first `k`.  All sequences of draws select `k` different
places, and every set of `k` places is what equally many of them select (`Reservoir.sample_uniform`).
The count goes by the last element: it is either left out or takes the place of one that was selected
before (`Reservoir.card_draws_without`, `Reservoir.card_draws_with`).
-/

namespace GraphQuery

/-! ## Numbers drawn from random words -/

namespace Words

theorem accept_lt {range : Nat} (h : 0 < range) :
    ∀ (supply : List UInt64) (drawn : Nat), (accept range supply drawn).1 < range
  | [], _ => h
  | w :: rest, drawn => by
    rw [accept]
    split
    · exact Nat.div_lt_of_lt_mul (Nat.mul_lt_mul_of_pos_right w.toNat_lt_size h)
    · exact accept_lt h rest (drawn + 1)

theorem upTo_le (most : Nat) (w : Words) : (upTo most w).1 ≤ most :=
  Nat.le_of_lt_succ (accept_lt (Nat.succ_pos most) _ _)

end Words

namespace Reservoir

open Finset

variable {α β σ : Type} {k m : Nat}

/-! ## Samples of more elements, and of others -/

theorem fill_of_free (draw : Nat → σ → Nat × σ) {seen : Nat} (slots : List α) (a : α) (rest : List α)
    (s : σ) (h : seen < k) :
    fill draw k seen slots (a :: rest) s = fill draw k (seen + 1) (slots ++ [a]) rest s := by
  rw [fill, if_pos h]

theorem fill_of_full (draw : Nat → σ → Nat × σ) {seen : Nat} (slots : List α) (a : α) (rest : List α)
    (s : σ) (h : ¬ seen < k) : fill draw k seen slots (a :: rest) s =
      fill draw k (seen + 1) (place slots (draw seen s).1 a) rest (draw seen s).2 := by
  rw [fill, if_neg h]

theorem fill_append (draw : Nat → σ → Nat × σ) (k seen : Nat) (slots xs ys : List α) (s : σ) :
    fill draw k seen slots (xs ++ ys) s = fill draw k (seen + xs.length)
      (fill draw k seen slots xs s).1 ys (fill draw k seen slots xs s).2 := by
  induction xs generalizing seen slots s with
  | nil => rfl
  | cons a rest ih =>
    have hlength : seen + (a :: rest).length = seen + 1 + rest.length := by
      rw [List.length_cons, Nat.add_assoc, Nat.add_comm 1]
    by_cases h : seen < k
    · rw [List.cons_append, fill_of_free draw slots a _ s h, fill_of_free draw slots a _ s h, hlength]
      exact ih _ _ _
    · rw [List.cons_append, fill_of_full draw slots a _ s h, fill_of_full draw slots a _ s h, hlength]
      exact ih _ _ _

theorem fill_of_le (draw : Nat → σ → Nat × σ) {seen : Nat} (slots xs : List α) (s : σ)
    (h : seen + xs.length ≤ k) : fill draw k seen slots xs s = (slots ++ xs, s) := by
  induction xs generalizing seen slots with
  | nil => rw [List.append_nil]; rfl
  | cons a rest ih =>
    rw [List.length_cons] at h
    rw [fill_of_free draw slots a rest s (by omega), ih _ (by omega), List.append_assoc,
      List.singleton_append]

theorem pick_of_le (draw : Nat → σ → Nat × σ) (xs : List α) (s : σ) (h : xs.length ≤ k) :
    pick draw k xs s = (xs, s) :=
  fill_of_le draw [] xs s (by rwa [Nat.zero_add])

theorem pick_concat (draw : Nat → σ → Nat × σ) {xs : List α} (h : k ≤ xs.length) (a : α) (s : σ) :
    (pick draw k (xs ++ [a]) s).1 =
      place (pick draw k xs s).1 (draw xs.length (pick draw k xs s).2).1 a := by
  rw [pick, fill_append, Nat.zero_add, fill_of_full draw _ a [] _ (Nat.not_lt.2 h)]
  rfl

theorem place_map (f : α → β) (slots : List α) (drawn : Nat) (a : α) :
    place (slots.map f) drawn (f a) = (place slots drawn a).map f := by
  rw [place, place, List.length_map, ← List.map_set]
  split <;> rfl

theorem fill_map (f : α → β) (draw : Nat → σ → Nat × σ) (k seen : Nat) (slots xs : List α) (s : σ) :
    fill draw k seen (slots.map f) (xs.map f) s =
      ((fill draw k seen slots xs s).1.map f, (fill draw k seen slots xs s).2) := by
  induction xs generalizing seen slots s with
  | nil => rfl
  | cons a rest ih =>
    by_cases h : seen < k
    · rw [List.map_cons, fill_of_free draw _ _ _ s h, fill_of_free draw _ _ _ s h, ← ih, List.map_append,
        List.map_singleton]
    · rw [List.map_cons, fill_of_full draw _ _ _ s h, fill_of_full draw _ _ _ s h, ← ih, place_map]

theorem pick_map (f : α → β) (draw : Nat → σ → Nat × σ) (k : Nat) (xs : List α) (s : σ) :
    (pick draw k (xs.map f) s).1 = (pick draw k xs s).1.map f :=
  congrArg Prod.fst (fill_map f draw k 0 [] xs s)

theorem fill_congr {draw draw' : Nat → σ → Nat × σ} {seen : Nat} (slots xs : List α) (s : σ)
    (h : ∀ i, k ≤ i → i < seen + xs.length → draw i = draw' i) :
    fill draw k seen slots xs s = fill draw' k seen slots xs s := by
  induction xs generalizing seen slots s with
  | nil => rfl
  | cons a rest ih =>
    rw [List.length_cons] at h
    have hrest : ∀ i, k ≤ i → i < seen + 1 + rest.length → draw i = draw' i := fun i hk hi =>
      h i hk (by omega)
    by_cases hs : seen < k
    · rw [fill_of_free draw _ _ _ s hs, fill_of_free draw' _ _ _ s hs, ih _ _ hrest]
    · rw [fill_of_full draw _ _ _ s hs, fill_of_full draw' _ _ _ s hs, h seen (by omega) (by omega),
        ih _ _ hrest]

/-! ## Sequences of draws -/

/-- The draws for `m` elements behind the first `k`: a number up to the place of each element. -/
abbrev Draws (k m : Nat) : Type := (i : Fin m) → Fin (k + i + 1)

namespace Draws

def draw (d : Draws k m) (i : Nat) (u : Unit) : Nat × Unit :=
  (if h : i - k < m then d ⟨i - k, h⟩ else 0, u)

def concat (d : Draws k m) (j : Fin (k + m + 1)) : Draws k (m + 1) :=
  Fin.snoc (α := fun i : Fin (m + 1) => Fin (k + i + 1)) d j

theorem draw_concat_of_lt (d : Draws k m) (j : Fin (k + m + 1)) {i : Nat} (h : i - k < m) :
    (d.concat j).draw i = d.draw i := by
  have hd : (d.concat j) (Fin.castSucc ⟨i - k, h⟩) = d ⟨i - k, h⟩ := Fin.snoc_castSucc ..
  funext u
  rw [draw, draw, dif_pos h, dif_pos (Nat.lt_succ_of_lt h), ← hd]
  rfl

theorem draw_concat_self (d : Draws k m) (j : Fin (k + m + 1)) (u : Unit) :
    ((d.concat j).draw (k + m) u).1 = j := by
  have hplace : ∀ i (hi : i < m + 1), i = m → ((d.concat j) ⟨i, hi⟩ : Nat) = j := by
    rintro i hi rfl
    exact congrArg Fin.val (Fin.snoc_last ..)
  have hi : k + m - k < m + 1 := by omega
  rw [draw, dif_pos hi]
  exact hplace _ hi (by omega)

theorem exists_concat (d : Draws k (m + 1)) : ∃ e : Draws k m, ∃ j, d = e.concat j :=
  ⟨Fin.init d, d (Fin.last m), (Fin.snoc_init_self d).symm⟩

theorem card_draws (k m : Nat) : Fintype.card (Draws k m) = ∏ i ∈ Ioc k (k + m), i := by
  rw [Fintype.card_pi]
  simp only [Fintype.card_fin]
  rw [Fin.prod_univ_eq_prod_range (fun i => k + i + 1)]
  induction m with
  | zero => simp
  | succ m ih => rw [prod_range_succ, ih, ← Nat.add_assoc, prod_Ioc_succ_top (Nat.le_add_right k m)]

theorem card_filter_concat (P : Draws k (m + 1) → Prop) [DecidablePred P] :
    #{d | P d} = ∑ d : Draws k m, #{j | P (d.concat j)} := by
  simp only [card_filter]
  rw [← (Fin.snocEquiv fun i : Fin (m + 1) => Fin (k + i + 1)).sum_comp, Fintype.sum_prod_type_right]
  rfl

end Draws

def places (d : Draws k m) : List Nat := (pick d.draw k (List.range (k + m)) ()).1

theorem places_concat (d : Draws k m) (j : Fin (k + m + 1)) :
    places (d.concat j) = place (places d) j (k + m) := by
  have hsame : pick (d.concat j).draw k (List.range (k + m)) () =
      pick d.draw k (List.range (k + m)) () :=
    fill_congr [] _ () fun i hk hi => d.draw_concat_of_lt j (by
      rw [List.length_range] at hi
      omega)
  rw [places, ← Nat.add_assoc, List.range_succ, pick_concat _ (by simp), hsame, List.length_range,
    Draws.draw_concat_self]
  rfl

theorem length_places (d : Draws k m) : (places d).length = k := by
  rw [places, length_pick, List.length_range, Nat.min_eq_left (Nat.le_add_right k m)]

theorem lt_of_mem_places (d : Draws k m) {i : Nat} (h : i ∈ places d) : i < k + m :=
  List.mem_range.1 (mem_pick h)

/-- **No place is selected twice.** -/
theorem nodup_places (d : Draws k m) : (places d).Nodup := by
  induction m with
  | zero =>
    rw [places, pick_of_le _ _ _ (by simp)]
    exact List.nodup_range
  | succ m ih =>
    obtain ⟨e, j, rfl⟩ := d.exists_concat
    rw [places_concat, place]
    split
    · exact (ih e).set fun h => Nat.lt_irrefl _ (lt_of_mem_places e h)
    · exact ih e

/-! ## How many draws select a set of places -/

section

variable {n : Nat} {slots : List Nat} {S : Finset Nat} (hn : slots.Nodup) (hnew : n ∉ slots)

include hn in
theorem toFinset_set {j : Nat} (h : j < slots.length) (a : Nat) :
    (slots.set j a).toFinset = insert a (slots.toFinset.erase slots[j]) := by
  have hrest : (slots.eraseIdx j).toFinset = slots.toFinset.erase slots[j] := by
    have hp := slots.getElem_cons_eraseIdx_perm h
    have hnot : slots[j] ∉ (slots.eraseIdx j).toFinset := fun hm =>
      (List.nodup_cons.1 (hp.nodup_iff.2 hn)).1 (List.mem_toFinset.1 hm)
    rw [← List.toFinset_eq_of_perm _ _ hp, List.toFinset_cons, erase_insert hnot]
  rw [List.toFinset_eq_of_perm _ _ (slots.set_perm_cons_eraseIdx h a), List.toFinset_cons, hrest]

/-- **A new element is left out by every draw behind the slots.** -/
theorem card_draws_without (hS : n ∉ S) (hk : slots.length = k) (hle : k ≤ n) :
    #{j : Fin (n + 1) | (place slots j n).toFinset = S} =
      if slots.toFinset = S then n + 1 - k else 0 := by
  have hiff : ∀ j : Fin (n + 1),
      (place slots j n).toFinset = S ↔ slots.toFinset = S ∧ ¬ (j : Nat) < k := fun j => by
    rw [place, hk]
    split
    · rename_i hj
      refine iff_of_false (fun he => hS (he ▸ ?_)) fun h => h.2 hj
      exact List.mem_toFinset.2 (List.mem_set (by rwa [hk]) _)
    · rename_i hj
      exact (and_iff_left hj).symm
  simp only [hiff]
  by_cases he : slots.toFinset = S
  · have hsplit := card_filter_add_card_filter_not (s := univ) fun j : Fin (n + 1) => (j : Nat) < k
    rw [Fin.card_filter_val_lt, card_univ, Fintype.card_fin] at hsplit
    simp only [he, true_and, if_true]
    omega
  · simp [he]

include hn hnew in
/-- **A new element takes the place of one that does not belong to the set**, by one draw. -/
theorem card_draws_with (hS : n ∈ S) (hk : slots.length = k) (hcard : #S = k) (hle : k ≤ n) :
    #{j : Fin (n + 1) | (place slots j n).toFinset = S} =
      if S.erase n ⊆ slots.toFinset then 1 else 0 := by
  have hnotin : ∀ a, n ∉ slots.toFinset.erase a := fun a hm =>
    hnew (List.mem_toFinset.1 (mem_of_mem_erase hm))
  have hiff : ∀ j : Fin (n + 1), (place slots j n).toFinset = S ↔
      ∃ h : (j : Nat) < slots.length, slots.toFinset.erase slots[j] = S.erase n := fun j => by
    rw [place]
    split
    · rename_i hj
      rw [toFinset_set hn hj, exists_prop_of_true hj]
      constructor
      · rintro rfl
        exact (erase_insert (hnotin _)).symm
      · exact fun he => (congrArg (insert n) he).trans (insert_erase hS)
    · rename_i hj
      refine iff_of_false (fun he => ?_) fun ⟨h, _⟩ => hj h
      exact hnew (List.mem_toFinset.1 (he ▸ hS))
  simp only [hiff]
  by_cases hsub : S.erase n ⊆ slots.toFinset
  · have hone : #(slots.toFinset \ S.erase n) = 1 := by
      have herase := card_erase_add_one hS
      rw [card_sdiff_of_subset hsub, List.toFinset_card_of_nodup hn]
      omega
    -- the draw is the slot of the one element that does not belong to the set
    obtain ⟨b, hb⟩ := card_eq_one.1 hone
    have hb' : b ∈ slots.toFinset \ S.erase n := hb ▸ mem_singleton_self b
    obtain ⟨i, hi, rfl⟩ := List.mem_iff_getElem.1 (List.mem_toFinset.1 (mem_sdiff.1 hb').1)
    rw [if_pos hsub]
    refine card_eq_one.2 ⟨⟨i, by omega⟩, Finset.ext fun j => ?_⟩
    rw [mem_filter_univ, mem_singleton]
    constructor
    · rintro ⟨h, he⟩
      have hj : slots[j] ∈ slots.toFinset \ S.erase n := mem_sdiff.2
        ⟨List.mem_toFinset.2 (List.getElem_mem h), he ▸ notMem_erase _ _⟩
      rw [hb, mem_singleton] at hj
      exact Fin.ext ((hn.getElem_inj_iff).1 hj)
    · rintro rfl
      have he : slots.toFinset.erase slots[i] = S.erase n := by
        rw [erase_eq, ← hb, Finset.sdiff_sdiff_eq_self hsub]
      exact ⟨hi, he⟩
  · rw [if_neg hsub, card_eq_zero, filter_eq_empty_iff]
    rintro j - ⟨h, he⟩
    exact hsub (he ▸ erase_subset _ _)

end

theorem card_places_above {S : Finset Nat} (hS : S ⊆ range (k + m)) (hk : #S + 1 = k)
    (hcount : ∀ T : Finset Nat, T ⊆ range (k + m) → #T = k →
      #{d : Draws k m | (places d).toFinset = T} = m.factorial) :
    #{d : Draws k m | S ⊆ (places d).toFinset} = (m + 1) * m.factorial := by
  have hsplit : ({d : Draws k m | S ⊆ (places d).toFinset} : Finset (Draws k m)) =
      (range (k + m) \ S).biUnion fun a => {d | (places d).toFinset = insert a S} := by
    ext d
    have hplaces : (places d).toFinset ⊆ range (k + m) := fun a ha =>
      mem_range.2 (lt_of_mem_places d (List.mem_toFinset.1 ha))
    have hcard : #S + 1 = #(places d).toFinset := by
      rw [List.toFinset_card_of_nodup (nodup_places d), length_places, hk]
    simp only [mem_filter_univ, mem_biUnion, mem_sdiff]
    constructor
    · intro h
      obtain ⟨a, ha, he⟩ := exists_eq_insert_iff.2 ⟨h, hcard⟩
      exact ⟨a, ⟨hplaces (he ▸ mem_insert_self a S), ha⟩, he.symm⟩
    · rintro ⟨a, -, he⟩
      exact he ▸ subset_insert a S
  have hdisjoint : ((range (k + m) \ S : Finset Nat) : Set Nat).PairwiseDisjoint
      fun a => ({d | (places d).toFinset = insert a S} : Finset (Draws k m)) := by
    intro a ha b _ hab
    refine disjoint_left.2 fun d hda hdb => hab ?_
    rw [mem_filter_univ] at hda hdb
    exact (insert_inj (mem_sdiff.1 (mem_coe.1 ha)).2).1 (hda.symm.trans hdb)
  have hblock : ∀ a ∈ range (k + m) \ S,
      #{d : Draws k m | (places d).toFinset = insert a S} = m.factorial := fun a ha => by
    obtain ⟨ha, hnot⟩ := mem_sdiff.1 ha
    exact hcount _ (insert_subset ha hS) (by rw [card_insert_of_notMem hnot, hk])
  have hrange : #(range (k + m) \ S) = m + 1 := by
    rw [card_sdiff_of_subset hS, card_range]
    omega
  rw [hsplit, card_biUnion hdisjoint, sum_const_nat hblock, hrange]

/-- **Equally many sequences of draws select every set of places.** -/
theorem card_places : ∀ (m : Nat) {S : Finset Nat}, S ⊆ range (k + m) → #S = k →
    #{d : Draws k m | (places d).toFinset = S} = m.factorial
  | 0, S, hS, hk => by
    have hplaces : ∀ d : Draws k 0, (places d).toFinset = S := fun d => by
      rw [eq_of_subset_of_card_le hS (by rw [card_range, hk]; exact Nat.le_refl k), places,
        pick_of_le _ _ _ (by simp)]
      exact List.toFinset_range _
    simp only [hplaces, filter_true, card_univ, Fintype.card_unique, Nat.factorial_zero]
  | m + 1, S, hS, hk => by
    have hnew : ∀ d : Draws k m, k + m ∉ places d := fun d h =>
      Nat.lt_irrefl _ (lt_of_mem_places d h)
    rw [Draws.card_filter_concat, Nat.factorial_succ]
    simp only [places_concat]
    by_cases hlast : k + m ∈ S
    · have hrest : S.erase (k + m) ⊆ range (k + m) := fun a ha => by
        obtain ⟨hne, ha⟩ := mem_erase.1 ha
        have := mem_range.1 (hS ha)
        exact mem_range.2 (by omega)
      rw [← card_places_above hrest ((card_erase_add_one hlast).trans hk)
        fun T hT hTk => card_places m hT hTk, card_filter]
      exact sum_congr rfl fun d _ => card_draws_with (nodup_places d) (hnew d) hlast
        (length_places d) hk (Nat.le_add_right k m)
    · have hall : S ⊆ range (k + m) := fun a ha => by
        have hne : a ≠ k + m := fun he => hlast (he ▸ ha)
        have := mem_range.1 (hS ha)
        exact mem_range.2 (by omega)
      have hfree : k + m + 1 - k = m + 1 := by omega
      rw [sum_congr rfl fun d _ => card_draws_without hlast (length_places d) (Nat.le_add_right k m),
        ← sum_filter, sum_const_nat fun _ _ => rfl, card_places m hall hk, hfree, Nat.mul_comm]

/-! ## Samples of any elements -/

theorem exists_draws {draw : Nat → σ → Nat × σ} (h : ∀ i s, (draw i s).1 ≤ i) (k m : Nat) (s : σ) :
    ∃ d : Draws k m, (pick draw k (List.range (k + m)) s).1 = places d := by
  induction m with
  | zero =>
    refine ⟨fun i => i.elim0, ?_⟩
    rw [places, pick_of_le _ _ _ (by simp), pick_of_le _ _ _ (by simp)]
  | succ m ih =>
    obtain ⟨d, hd⟩ := ih
    let drawn := draw (k + m) (pick draw k (List.range (k + m)) s).2
    refine ⟨d.concat ⟨drawn.1, Nat.lt_succ_of_le (h _ _)⟩, ?_⟩
    rw [places_concat, ← hd, ← Nat.add_assoc, List.range_succ, pick_concat _ (by simp),
      List.length_range]

/-- The places in a list of `n` elements that a sequence of draws selects. -/
def selected (n : Nat) (d : Draws k m) : List (Fin n) := (pick d.draw k (List.finRange n) ()).1

theorem map_val_pick (draw : Nat → σ → Nat × σ) (k n : Nat) (s : σ) :
    (pick draw k (List.finRange n) s).1.map Fin.val = (pick draw k (List.range n) s).1 := by
  rw [← pick_map, List.map_coe_finRange_eq_range]

theorem pick_eq_map_get (draw : Nat → σ → Nat × σ) (k : Nat) (xs : List α) (s : σ) :
    (pick draw k xs s).1 = (pick draw k (List.finRange xs.length) s).1.map xs.get := by
  rw [← pick_map, List.map_get_finRange]

section

variable {n : Nat} (hk : k ≤ n)

include hk

theorem map_val_selected (d : Draws k (n - k)) : (selected n d).map Fin.val = places d := by
  rw [selected, map_val_pick, places, Nat.add_sub_cancel' hk]

theorem nodup_selected (d : Draws k (n - k)) : (selected n d).Nodup :=
  List.Nodup.of_map Fin.val (map_val_selected hk d ▸ nodup_places d)

theorem length_selected (d : Draws k (n - k)) : (selected n d).length = k := by
  rw [← List.length_map Fin.val, map_val_selected hk, length_places]

theorem card_selected {S : Finset (Fin n)} (hS : #S = k) :
    #{d : Draws k (n - k) | (selected n d).toFinset = S} = (n - k).factorial := by
  have hplaces : S.image Fin.val ⊆ range (k + (n - k)) := fun a ha => by
    obtain ⟨i, -, rfl⟩ := mem_image.1 ha
    rw [Nat.add_sub_cancel' hk]
    exact mem_range.2 i.isLt
  have hcard : #(S.image Fin.val) = k := (card_image_of_injective S Fin.val_injective).trans hS
  have hiff : ∀ d : Draws k (n - k),
      (places d).toFinset = S.image Fin.val ↔ (selected n d).toFinset = S := fun d => by
    have himage : (places d).toFinset = (selected n d).toFinset.image Fin.val := by
      rw [← map_val_selected hk]
      ext a
      simp
    rw [himage]
    exact (image_injective Fin.val_injective).eq_iff
  rw [← card_places (n - k) hplaces hcard]
  simp only [hiff]

end

theorem exists_pick_eq {draw : Nat → σ → Nat × σ} (h : ∀ i s, (draw i s).1 ≤ i) {xs : List α}
    (hk : k ≤ xs.length) (s : σ) :
    ∃ d : Draws k (xs.length - k), (pick draw k xs s).1 = (selected xs.length d).map xs.get := by
  obtain ⟨d, hd⟩ := exists_draws h k (xs.length - k) s
  refine ⟨d, ?_⟩
  rw [Nat.add_sub_cancel' hk, ← map_val_pick, ← map_val_selected hk] at hd
  rw [pick_eq_map_get, List.map_injective_iff.2 Fin.val_injective hd]

/--
**A sample is uniform.**  There is none if its `k` elements exceed what a vector may have.  Else a list of
at most `k` elements is its own sample; of a longer list, whatever the numbers are drawn from, the sample
is what one of the `(k + 1) (k + 2) ... n` sequences of draws selects; each of them selects `k` different
places, and every set of `k` places is selected by equally many of them.
-/
theorem sample_uniform {draw : Nat → σ → Nat × σ} (h : ∀ i s, (draw i s).1 ≤ i) (size k : Nat)
    (xs : List α) (s : σ) :
    (sample size draw k xs s = none ↔ room < size * k) ∧
    (size * k ≤ room → ∃ slots s', sample size draw k xs s = some (slots, s') ∧
      (xs.length ≤ k → slots = xs) ∧
      (k < xs.length →
        let n := xs.length
        (∃ d : Draws k (n - k), slots = (selected n d).map xs.get) ∧
        (∀ d : Draws k (n - k), sample size d.draw k xs () = some ((selected n d).map xs.get, ()) ∧
          (selected n d).Nodup ∧ (selected n d).length = k) ∧
        Fintype.card (Draws k (n - k)) = ∏ i ∈ Ioc k n, i ∧
        ∀ S : Finset (Fin n), #S = k →
          #{d : Draws k (n - k) | (selected n d).toFinset = S} = (n - k).factorial)) := by
  refine ⟨sample_eq_none_iff, fun hroom => ⟨(pick draw k xs s).1, (pick draw k xs s).2,
    sample_eq_some_iff.2 ⟨hroom, rfl⟩, fun hle => congrArg Prod.fst (pick_of_le draw xs s hle), ?_⟩⟩
  intro hlt n
  have hk : k ≤ n := hlt.le
  refine ⟨exists_pick_eq h hk s, fun d => ⟨?_, nodup_selected hk d, length_selected hk d⟩, ?_,
    fun S hS => card_selected hk hS⟩
  · exact sample_eq_some_iff.2 ⟨hroom, Prod.ext (pick_eq_map_get d.draw k xs ()) rfl⟩
  · rw [Draws.card_draws, Nat.add_sub_cancel' hk]

/--
Two of four elements of eight bytes, drawn from random words: two of twelve sequences select the even
places.  Of so many elements that they fill a vector one byte over, there is no sample.
-/
theorem sample_uniform_words :
    let xs : List Nat := [10, 20, 30, 40]
    let w : Words := ⟨[0, 0], 0⟩
    (∀ i w, (Words.upTo i w).1 ≤ i) ∧ sample 8 Words.upTo (2 ^ 60) xs w = none ∧
      8 * 2 ≤ room ∧ sample 8 Words.upTo 2 xs w = some ([40, 20], ⟨[], 2⟩) ∧
      (∃ d : Draws 2 2, [40, 20] = (selected 4 d).map xs.get) ∧
      Fintype.card (Draws 2 2) = 12 ∧
      #{d : Draws 2 2 | (selected 4 d).toFinset = {1, 3}} = 2 := by
  intro xs w
  have hsample : sample 8 Words.upTo 2 xs w = some ([40, 20], ⟨[], 2⟩) := rfl
  obtain ⟨slots, s', hs, -, h⟩ := (sample_uniform Words.upTo_le 8 2 xs w).2 (by decide)
  obtain ⟨hselected, -, hcard, hcount⟩ := h (by decide)
  obtain ⟨rfl, rfl⟩ := Prod.mk.inj (Option.some.inj (hs.symm.trans hsample))
  exact ⟨Words.upTo_le, (sample_uniform Words.upTo_le 8 (2 ^ 60) xs w).1.2 (by decide), by decide,
    hsample, hselected, hcard, hcount {1, 3} (by decide)⟩

end Reservoir

end GraphQuery
