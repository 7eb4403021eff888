import GraphQuery.Proofs.Execution.Replanting
import GraphQuery.Proofs.Value.Identity
/-!
# Results in the order of their leaves

A subquery that leaves one result for every leaf, in their order and each equal to its leaf, has
every result take the place of its own leaf: nothing is removed, and no result goes elsewhere even
if the same item occurs many times (`Replant.replantOrReplace_pairs`).
-/

namespace GraphQuery

namespace Replant

def Matched (pairs : List (Leaf × Item)) : Prop := ∀ a ∈ pairs, (a.1.item == a.2) = true

variable {pairs : List (Leaf × Item)}

theorem findFree_of_taken {taken : List Nat} {result : Item} {leaf : Leaf}
    (he : (leaf.item == result) = true) : ∀ {i index : Nat} {origins : List Leaf},
      (∀ j < i, index + j ∈ taken) → index + i ∉ taken → origins[i]? = some leaf →
        findFree taken result index origins = some (index + i)
  | _, _, [], _, _, hl => by simp at hl
  | 0, index, l :: rest, _, hf, hl => by
    cases hl
    rw [Nat.add_zero] at hf
    simp [findFree, he, hf]
  | i + 1, index, l :: rest, ht, hf, hl => by
    have h0 : index ∈ taken := ht 0 (Nat.succ_pos i)
    have hs : index + 1 + i = index + (i + 1) := by omega
    have hr : findFree taken result (index + 1) rest = some (index + 1 + i) :=
      findFree_of_taken he
        (fun j hj => by
          rw [Nat.add_assoc, Nat.add_comm 1]
          exact ht (j + 1) (Nat.succ_lt_succ hj))
        (by rwa [hs]) hl
    rw [findFree, if_neg (by simp [h0]), hr, hs]

theorem assign_pairs_from {all : List Leaf} : ∀ {pairs : List (Leaf × Item)} {k : Nat}
    {taken : List Nat}, Matched pairs → (∀ o, o ∈ taken ↔ o < k) →
      (∀ (j : Nat) a, pairs[j]? = some a → all[k + j]? = some a.1) →
      assign all taken (pairs.map Prod.snd) = (List.range' k pairs.length).map some
  | [], _, _, _, _, _ => rfl
  | a :: pairs, k, taken, hm, ht, hall => by
    -- the leaves before `k` are taken, so the search comes to the result's own leaf first
    have hf : findFree taken a.2 0 all = some k := by
      rw [← Nat.zero_add k]
      refine findFree_of_taken (hm a List.mem_cons_self) (fun j hj => ?_) ?_ (hall 0 a rfl)
      · rw [Nat.zero_add]
        exact (ht j).2 hj
      · rw [Nat.zero_add, ht]
        exact Nat.lt_irrefl k
    rw [List.map_cons, assign, hf, List.length_cons, List.range'_succ, List.map_cons]
    simp only [List.cons.injEq, true_and]
    refine assign_pairs_from (fun b hb => hm b (List.mem_cons_of_mem a hb)) (fun o => ?_)
      fun j b hb => ?_
    · rw [List.mem_cons, ht]
      omega
    · rw [Nat.add_assoc, Nat.add_comm 1]
      exact hall (j + 1) b hb

/-- **Every result takes the place of its own leaf.** -/
theorem assign_pairs (h : Matched pairs) :
    assign (pairs.map Prod.fst) [] (pairs.map Prod.snd) =
      (List.range' 0 pairs.length).map some := by
  refine assign_pairs_from h (fun o => by simp) fun j a ha => ?_
  rw [Nat.zero_add, List.getElem?_map, ha]
  rfl

theorem getElem?_assign_pairs (h : Matched pairs) {j : Nat} (hj : j < pairs.length) :
    (assign (pairs.map Prod.fst) [] (pairs.map Prod.snd))[j]? = some (some j) := by
  rw [assign_pairs h, List.getElem?_map, List.getElem?_range' hj]
  simp

theorem homeless_pairs (h : Matched pairs) :
    homeless (pairs.map Prod.fst) (pairs.map Prod.snd) = false := by
  unfold homeless
  rw [assign_pairs h]
  cases pairs with
  | nil => rfl
  | cons a pairs => simp [List.range'_succ]

theorem removals_pairs (h : Matched pairs) :
    removals (pairs.map Prod.fst) (pairs.map Prod.snd) = [] := by
  rw [List.eq_nil_iff_forall_not_mem]
  intro p hp
  obtain ⟨k, leaf, hl, hn, -⟩ := mem_removals.1 hp
  have hk : k < pairs.length := by
    have := (List.getElem?_eq_some_iff.1 hl).1
    rwa [List.length_map] at this
  exact hn (List.mem_of_getElem? (getElem?_assign_pairs h hk))

theorem placements_pairs (h : Matched pairs) :
    placements (pairs.map Prod.fst) (pairs.map Prod.snd) =
      pairs.map fun a => (a.1.path, a.2) := by
  have go : ∀ (all : List Leaf) (k : Nat) (rest : List (Leaf × Item)),
      (∀ (j : Nat) a, rest[j]? = some a → all[k + j]? = some a.1) →
      ((rest.map Prod.snd).zip ((List.range' k rest.length).map some)).filterMap (placement? all) =
        rest.map fun a => (a.1.path, a.2) := by
    intro all k rest
    induction rest generalizing k with
    | nil => intro _; rfl
    | cons a rest ih =>
      intro hall
      have ha : placement? all (a.2, some k) = some (a.1.path, a.2) := by
        simp [placement?, show all[k]? = some a.1 from hall 0 a rfl]
      rw [List.map_cons, List.length_cons, List.range'_succ, List.map_cons, List.zip_cons_cons,
        List.filterMap_cons, ha, List.map_cons, ih (k + 1) fun j b hb => ?_]
      rw [Nat.add_assoc, Nat.add_comm 1]
      exact hall (j + 1) b hb
  rw [placements, assign_pairs h]
  refine go _ 0 pairs fun j a ha => ?_
  rw [Nat.zero_add, List.getElem?_map, ha]
  rfl

theorem outward_pairs (h : Matched pairs) {j : Nat} {a : Leaf × Item} (ha : pairs[j]? = some a)
    (rest : Path) :
    outward (pairs.map Prod.fst) (assign (pairs.map Prod.fst) [] (pairs.map Prod.snd))
      (.entry 0 :: .item j :: rest) = some (a.1.path ++ rest) := by
  rw [outward_entry_item, outward_item,
    getElem?_assign_pairs h (List.getElem?_eq_some_iff.1 ha).1]
  simp [ha]

/-- **Matched results are put in the places of their leaves, and nothing else happens.** -/
theorem replantOrReplace_pairs (h : Matched pairs) (sub : Option Cursor) (into : Placed) :
    replantOrReplace (pairs.map Prod.fst) (pairs.map Prod.snd) sub into =
      ⟨into.tree.putAll (pairs.map fun a => (a.1.path, a.2)),
        (sub.or into.cursor).map fun c =>
          ⟨carried (pairs.map Prod.fst) (pairs.map Prod.snd) sub into, c.key⟩⟩ := by
  rw [replantOrReplace, replant?_eq, homeless_pairs h, removals_pairs h, planted,
    placements_pairs h]
  rfl

end Replant

end GraphQuery
