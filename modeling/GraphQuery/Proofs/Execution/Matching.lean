import GraphQuery.Execution.Replant
import GraphQuery.Proofs.Tree.Removal
/-!
# Results and the places they take

Every result that finds a place takes the place of a leaf equal to it, and no two results take the
same one (`assign_injective`).  Leaves lie apart, so the results are put in without disturbing each
other: a place holds its result afterwards, and what lies apart from all places stays.
-/

namespace GraphQuery

namespace Replant

variable {origins : List Leaf} {results : List Item} {taken : List Nat}

/-! ## Who takes which place -/

theorem findFree_eq_some {result : Item} : ∀ {index o : Nat} {origins : List Leaf},
    findFree taken result index origins = some o → o ∉ taken ∧
      ∃ k leaf, o = index + k ∧ origins[k]? = some leaf ∧ (leaf.item == result) = true
  | _, _, [], h => by cases h
  | index, o, leaf :: rest, h => by
    rw [findFree] at h
    split at h
    · rename_i hc
      cases h
      simp only [Bool.and_eq_true, Bool.not_eq_true', List.contains_eq_mem,
        decide_eq_false_iff_not] at hc
      exact ⟨hc.2, 0, leaf, rfl, rfl, hc.1⟩
    · obtain ⟨ht, k, leaf', rfl, hk, he⟩ := findFree_eq_some h
      exact ⟨ht, k + 1, leaf', by omega, hk, he⟩

theorem getElem?_assign : ∀ {taken : List Nat} {results : List Item} {s o : Nat},
    (assign origins taken results)[s]? = some (some o) → o ∉ taken ∧
      ∃ leaf result, origins[o]? = some leaf ∧ results[s]? = some result ∧
        (leaf.item == result) = true
  | _, [], s, o, h => by simp [assign] at h
  | taken, result :: rest, s, o, h => by
    rw [assign] at h
    cases hf : findFree taken result 0 origins with
    | some o' =>
      rw [hf] at h
      cases s with
      | zero =>
        cases h
        obtain ⟨ht, k, leaf, hk, hl, he⟩ := findFree_eq_some hf
        rw [Nat.zero_add] at hk
        subst hk
        exact ⟨ht, leaf, result, hl, rfl, he⟩
      | succ s =>
        rw [List.getElem?_cons_succ] at h
        obtain ⟨ht, leaf, r, hl, hr, he⟩ := getElem?_assign h
        exact ⟨fun hm => ht (List.mem_cons_of_mem o' hm), leaf, r, hl, hr, he⟩
    | none =>
      rw [hf] at h
      cases s with
      | zero => cases h
      | succ s =>
        rw [List.getElem?_cons_succ] at h
        obtain ⟨ht, leaf, r, hl, hr, he⟩ := getElem?_assign h
        exact ⟨ht, leaf, r, hl, hr, he⟩

/-- **No two results take the same place.** -/
theorem assign_injective : ∀ {taken : List Nat} {results : List Item} {s s' o : Nat},
    (assign origins taken results)[s]? = some (some o) →
      (assign origins taken results)[s']? = some (some o) → s = s'
  | _, [], s, s', o, h, _ => by simp [assign] at h
  | taken, result :: rest, s, s', o, h, h' => by
    rw [assign] at h h'
    cases hf : findFree taken result 0 origins with
    | some o' =>
      rw [hf] at h h'
      cases s with
      | zero =>
        cases h
        cases s' with
        | zero => rfl
        | succ s' =>
          -- the place of the first result is taken when the later ones look for theirs
          rw [List.getElem?_cons_succ] at h'
          exact absurd List.mem_cons_self (getElem?_assign h').1
      | succ s =>
        rw [List.getElem?_cons_succ] at h
        cases s' with
        | zero =>
          cases h'
          exact absurd List.mem_cons_self (getElem?_assign h).1
        | succ s' =>
          rw [List.getElem?_cons_succ] at h'
          rw [assign_injective h h']
    | none =>
      rw [hf] at h h'
      cases s with
      | zero => cases h
      | succ s =>
        cases s' with
        | zero => cases h'
        | succ s' =>
          rw [List.getElem?_cons_succ] at h h'
          rw [assign_injective h h']

/-! ## Putting results in -/

def placement? (origins : List Leaf) (assigned : Item × Option Nat) : Option (Path × Item) :=
  (assigned.2.bind (origins[·]?)).map fun leaf => (leaf.path, assigned.1)

/-- The places of all results that have one, in the order of the results. -/
def placements (origins : List Leaf) (results : List Item) : List (Path × Item) :=
  (results.zip (assign origins [] results)).filterMap (placement? origins)

end Replant

namespace Tree

def putAll (t : Tree) (ps : List (Path × Item)) : Tree :=
  ps.foldl (fun t p => t.changeItem (fun _ => p.2) p.1) t

variable {t : Tree} {ps : List (Path × Item)} {p q : Path}

theorem putAll_cons (t : Tree) (a : Path × Item) (ps : List (Path × Item)) :
    t.putAll (a :: ps) = (t.changeItem (fun _ => a.2) a.1).putAll ps := rfl

theorem skeleton_putAll (t : Tree) (ps : List (Path × Item)) :
    (t.putAll ps).skeleton = t.skeleton := by
  induction ps generalizing t with
  | nil => rfl
  | cons a ps ih => rw [putAll_cons, ih, skeleton_changeItem]

theorem itemAt?_putAll_apart {t : Tree} (h : ∀ a ∈ ps, a.1.Apart q) :
    (t.putAll ps).itemAt? q = t.itemAt? q := by
  induction ps generalizing t with
  | nil => rfl
  | cons a ps ih =>
    rw [putAll_cons, ih fun b hb => h b (List.mem_cons_of_mem a hb),
      itemAt?_changeItem_apart _ (h a List.mem_cons_self)]

/-- **Every place holds what was put there.** -/
theorem itemAt?_putAll_of_mem {r item : Item} {t : Tree} (h : ps.Pairwise fun a b => a.1.Apart b.1)
    (hm : (p, r) ∈ ps) (hp : t.itemAt? p = some item) : (t.putAll ps).itemAt? p = some r := by
  induction ps generalizing t item with
  | nil => cases hm
  | cons a ps ih =>
    obtain ⟨ha, h⟩ := List.pairwise_cons.1 h
    rw [putAll_cons]
    rcases List.mem_cons.1 hm with rfl | hm
    · rw [itemAt?_putAll_apart fun b hb => (ha b hb).symm, itemAt?_changeItem, hp]
      rfl
    · exact ih h hm (by rw [itemAt?_changeItem_apart _ (ha _ hm), hp])

theorem isSome_itemAt?_putAll {t : Tree} (h : ∀ a ∈ ps, a.1.Apart q ∨ q <+: a.1)
    (hq : (t.itemAt? q).isSome = true) : ((t.putAll ps).itemAt? q).isSome = true := by
  induction ps generalizing t with
  | nil => exact hq
  | cons a ps ih =>
    rw [putAll_cons]
    refine ih (fun b hb => h b (List.mem_cons_of_mem a hb)) ?_
    rcases h a List.mem_cons_self with ha | ⟨r, hr⟩
    · rwa [itemAt?_changeItem_apart _ ha]
    · obtain ⟨item, hi⟩ := Option.isSome_iff_exists.1 hq
      rw [← hr, itemAt?_changeItem_above _ hi]
      rfl

end Tree

namespace Replant

variable {origins : List Leaf} {results : List Item}

/-- **Overwriting puts every result in its place.** -/
theorem overwrite_eq (t : Tree) (origins : List Leaf) : ∀ assigned : List (Item × Option Nat),
    overwrite origins assigned t = t.putAll (assigned.filterMap (placement? origins))
  | [] => rfl
  | (result, none) :: rest => by
    rw [overwrite, overwrite_eq t origins rest]
    rfl
  | (result, some o) :: rest => by
    rw [overwrite]
    cases ho : origins[o]? with
    | none =>
      rw [List.filterMap_cons_none (by simp [placement?, ho])]
      exact overwrite_eq t origins rest
    | some leaf =>
      rw [List.filterMap_cons_some (b := (leaf.path, result)) (by simp [placement?, ho]),
        Tree.putAll_cons]
      exact overwrite_eq _ origins rest

theorem mem_placements {p : Path} {r : Item} : (p, r) ∈ placements origins results ↔
    ∃ (s o : Nat) (leaf : Leaf), (assign origins [] results)[s]? = some (some o) ∧
      results[s]? = some r ∧ origins[o]? = some leaf ∧ leaf.path = p := by
  rw [placements, List.mem_filterMap]
  constructor
  · rintro ⟨⟨result, o⟩, hm, h⟩
    obtain ⟨s, hs⟩ := List.mem_iff_getElem?.1 hm
    obtain ⟨hr, ha⟩ := List.getElem?_zip_eq_some.1 hs
    obtain ⟨leaf, hl, h⟩ := Option.map_eq_some_iff.1 h
    obtain ⟨o, rfl, ho⟩ := Option.bind_eq_some_iff.1 hl
    cases h
    exact ⟨s, o, leaf, ha, hr, ho, rfl⟩
  · rintro ⟨s, o, leaf, ha, hr, ho, rfl⟩
    refine ⟨(r, some o), List.mem_iff_getElem?.2 ⟨s, List.getElem?_zip_eq_some.2 ⟨hr, ha⟩⟩, ?_⟩
    simp [placement?, ho]

theorem apart_of_getElem? (h : origins.Pairwise Leaf.Apart) {o o' : Nat} {a a' : Leaf}
    (ho : origins[o]? = some a) (ho' : origins[o']? = some a') (hne : o ≠ o') :
    a.path.Apart a'.path := by
  obtain ⟨hlt, rfl⟩ := List.getElem?_eq_some_iff.1 ho
  obtain ⟨hlt', rfl⟩ := List.getElem?_eq_some_iff.1 ho'
  have hp := List.pairwise_iff_getElem.1 h
  rcases Nat.lt_or_gt_of_ne hne with hl | hl
  · exact hp o o' hlt hlt' hl
  · exact (hp o' o hlt' hlt hl).symm

theorem pairwise_apart_placements (h : origins.Pairwise Leaf.Apart) :
    (placements origins results).Pairwise fun a b => a.1.Apart b.1 := by
  rw [placements, List.pairwise_filterMap, List.pairwise_iff_getElem]
  intro s s' hs hs' hlt a ha a' ha'
  have hz := List.getElem?_eq_getElem hs
  have hz' := List.getElem?_eq_getElem hs'
  obtain ⟨-, hz⟩ := List.getElem?_zip_eq_some.1 hz
  obtain ⟨-, hz'⟩ := List.getElem?_zip_eq_some.1 hz'
  obtain ⟨leaf, hl, rfl⟩ := Option.map_eq_some_iff.1 ha
  obtain ⟨leaf', hl', rfl⟩ := Option.map_eq_some_iff.1 ha'
  obtain ⟨o, ho, hl⟩ := Option.bind_eq_some_iff.1 hl
  obtain ⟨o', ho', hl'⟩ := Option.bind_eq_some_iff.1 hl'
  rw [ho] at hz
  rw [ho'] at hz'
  refine apart_of_getElem? h hl hl' ?_
  rintro rfl
  have := assign_injective hz hz'
  omega

end Replant

end GraphQuery
