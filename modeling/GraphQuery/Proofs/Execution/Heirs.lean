import GraphQuery.Proofs.Execution.Replanting
import GraphQuery.Proofs.Value.Classes
/-!
# Which result takes which place

Among equal leaves the first one takes the first result equal to it, the second one the next such
result, and so on (`Replant.heir_eq_some`); the leaves for which there is no such result get
none.
-/

namespace GraphQuery

namespace Replant

variable {origins : List Leaf} {taken : List Nat} {x : Item} {o : Nat}

/-! ## Free places -/

def isFree (origins : List Leaf) (taken : List Nat) (x : Item) (o : Nat) : Bool :=
  !taken.contains o && origins[o]?.any (·.item == x)

def freeBefore (origins : List Leaf) (taken : List Nat) (x : Item) (o : Nat) : Nat :=
  (List.range o).countP (isFree origins taken x)

theorem isFree_iff : isFree origins taken x o = true ↔
    o ∉ taken ∧ ∃ leaf, origins[o]? = some leaf ∧ (leaf.item == x) = true := by
  rw [isFree, Bool.and_eq_true, Option.any_eq_true]
  simp

theorem isFree_of_findFree (h : findFree taken x 0 origins = some o) :
    isFree origins taken x o = true := by
  obtain ⟨ht, k, leaf, ho, hk, he⟩ := findFree_eq_some h
  rw [Nat.zero_add] at ho
  exact isFree_iff.2 ⟨ht, leaf, ho ▸ hk, he⟩

theorem isFree_congr {y : Item} (h : (x == y) = true) :
    isFree origins taken x = isFree origins taken y := by
  funext o
  unfold isFree
  cases origins[o]? with
  | none => rfl
  | some leaf => exact congrArg _ (BEq.congr_right h)

theorem exists_findFree {leaf : Leaf} : ∀ {k index : Nat} {origins : List Leaf},
    origins[k]? = some leaf → (leaf.item == x) = true → index + k ∉ taken →
      ∃ j ≤ k, findFree taken x index origins = some (index + j)
  | _, _, [], h, _, _ => by cases h
  | k, index, l :: rest, h, he, ht => by
    rw [findFree]
    split
    · exact ⟨0, Nat.zero_le k, rfl⟩
    · rename_i hc
      cases k with
      | zero =>
        cases h
        rw [Nat.add_zero] at ht
        simp [he, ht] at hc
      | succ k =>
        have hrest : rest[k]? = some leaf := h
        have hfree : index + 1 + k ∉ taken := by rwa [Nat.add_right_comm, Nat.add_assoc]
        obtain ⟨j, hj, hf⟩ := exists_findFree hrest he hfree
        exact ⟨j + 1, Nat.succ_le_succ hj, by rw [hf, Nat.add_right_comm, Nat.add_assoc]⟩

theorem freeBefore_of_findFree (h : findFree taken x 0 origins = some o) :
    freeBefore origins taken x o = 0 := by
  refine List.countP_eq_zero.2 fun k hk hfree => ?_
  obtain ⟨ht, leaf, hl, he⟩ := isFree_iff.1 hfree
  obtain ⟨j, hj, hf⟩ := exists_findFree hl he (by rwa [Nat.zero_add])
  rw [h, Nat.zero_add] at hf
  cases hf
  have hlt := List.mem_range.1 hk
  omega

theorem isFree_cons {o₀ : Nat} (h : o ≠ o₀) :
    isFree origins (o₀ :: taken) x o = isFree origins taken x o := by
  simp [isFree, h]

theorem freeBefore_succ : freeBefore origins taken x (o + 1) =
    freeBefore origins taken x o + if isFree origins taken x o = true then 1 else 0 := by
  rw [freeBefore, List.range_succ, List.countP_append, List.countP_singleton]
  rfl

theorem freeBefore_cons_of_not {o₀ : Nat}
    (h : o₀ < o → isFree origins taken x o₀ = false) :
    freeBefore origins (o₀ :: taken) x o = freeBefore origins taken x o := by
  refine List.countP_congr fun k hk => ?_
  by_cases hk₀ : k = o₀
  · subst hk₀
    have hf : isFree origins (k :: taken) x k = false := by simp [isFree]
    rw [hf, h (List.mem_range.1 hk)]
  · rw [isFree_cons hk₀]

theorem freeBefore_cons {o₀ : Nat} (h : o₀ < o) (hf : isFree origins taken x o₀ = true) :
    freeBefore origins taken x o = freeBefore origins (o₀ :: taken) x o + 1 := by
  induction o with
  | zero => cases h
  | succ o ih =>
    rw [freeBefore_succ, freeBefore_succ]
    by_cases ho : o = o₀
    · subst ho
      have hn : isFree origins (o :: taken) x o = false := by simp [isFree]
      rw [freeBefore_cons_of_not fun hlt => absurd hlt (Nat.lt_irrefl o), if_pos hf, hn]
      rfl
    · rw [ih (by omega), isFree_cons ho]
      omega

theorem freeBefore_nil : freeBefore origins [] x o = (origins.take o).countP (·.item == x) := by
  induction o with
  | zero => rfl
  | succ o ih =>
    rw [freeBefore_succ, ih, List.take_add_one, List.countP_append]
    cases h : origins[o]? with
    | none => simp [isFree, h]
    | some leaf => simp [isFree, h, List.countP_singleton]

/-! ## Heirs -/

/-- The result that takes the place of an origin, by their numbers among equal ones. -/
def heir (origins : List Leaf) (results : List Item) (o : Nat) : Option Item :=
  origins[o]?.bind fun leaf =>
    (results.filter (leaf.item == ·))[(origins.take o).countP (·.item == leaf.item)]?

theorem not_mem_of_mem_zip {results : List Item} {r : Item}
    (h : (r, some o) ∈ results.zip (assign origins taken results)) : o ∉ taken := by
  obtain ⟨s, hs⟩ := List.mem_iff_getElem?.1 h
  exact (getElem?_assign (List.getElem?_zip_eq_some.1 hs).2).1

/--
**A free place goes to the result whose number among equal results is the number of free places
before it.**
-/
theorem mem_zip_assign_iff {leaf : Leaf} {r : Item} (ho : origins[o]? = some leaf) :
    ∀ {results : List Item} {taken : List Nat}, o ∉ taken →
      ((r, some o) ∈ results.zip (assign origins taken results) ↔
        (results.filter (leaf.item == ·))[freeBefore origins taken leaf.item o]? = some r)
  | [], taken, ht => by simp [assign]
  | x :: rest, taken, ht => by
    rw [assign]
    cases hx : leaf.item == x with
    | true =>
      obtain ⟨o₀, hle, hf⟩ := exists_findFree ho hx (by rwa [Nat.zero_add])
      rw [Nat.zero_add] at hf
      rw [hf, List.filter_cons_of_pos hx]
      dsimp only
      rw [List.zip_cons_cons, List.mem_cons]
      rcases Nat.eq_or_lt_of_le hle with rfl | hlt
      · have hn : (r, some o₀) ∉ rest.zip (assign origins (o₀ :: taken) rest) :=
          fun h => not_mem_of_mem_zip h List.mem_cons_self
        rw [freeBefore, isFree_congr hx, ← freeBefore, freeBefore_of_findFree hf]
        simp [hn, eq_comm]
      · have hfree : isFree origins taken leaf.item o₀ = true := by
          rw [isFree_congr hx]
          exact isFree_of_findFree hf
        rw [freeBefore_cons hlt hfree, List.getElem?_cons_succ,
          ← mem_zip_assign_iff ho (by simp [ht, Nat.ne_of_gt hlt])]
        simp [Nat.ne_of_gt hlt]
    | false =>
      rw [List.filter_cons_of_neg (by simp [hx])]
      cases hf : findFree taken x 0 origins with
      | none =>
        dsimp only
        rw [List.zip_cons_cons, List.mem_cons, mem_zip_assign_iff ho ht]
        simp
      | some o₀ =>
        obtain ⟨-, leaf₀, hl₀, he₀⟩ := isFree_iff.1 (isFree_of_findFree hf)
        have hne : o ≠ o₀ := by
          rintro rfl
          rw [ho] at hl₀
          cases hl₀
          rw [hx] at he₀
          cases he₀
        -- the place that is taken is one for other results
        have hother : isFree origins taken leaf.item o₀ = false := by
          rw [← Bool.not_eq_true, isFree_iff]
          rintro ⟨-, leaf₁, hl₁, he₁⟩
          rw [hl₀] at hl₁
          cases hl₁
          rw [BEq.trans (BEq.symm he₁) he₀] at hx
          cases hx
        dsimp only
        rw [List.zip_cons_cons, List.mem_cons, mem_zip_assign_iff ho (by simp [ht, hne]),
          freeBefore_cons_of_not fun _ => hother]
        simp [hne]

/-- **The heir of an origin is the result that takes its place.** -/
theorem heir_eq_some {results : List Item} {r : Item} : heir origins results o = some r ↔
    (r, some o) ∈ results.zip (assign origins [] results) := by
  cases ho : origins[o]? with
  | none =>
    rw [heir, ho]
    refine ⟨fun h => (by cases h), fun h => ?_⟩
    obtain ⟨s, hs⟩ := List.mem_iff_getElem?.1 h
    obtain ⟨-, leaf, -, hl, -⟩ := getElem?_assign (List.getElem?_zip_eq_some.1 hs).2
    rw [ho] at hl
    cases hl
  | some leaf =>
    rw [mem_zip_assign_iff ho List.not_mem_nil, freeBefore_nil, heir, ho]
    rfl

theorem all_isNone_assign : ∀ {results : List Item},
    (assign origins [] results).all Option.isNone = true ↔
      ∀ r ∈ results, ∀ leaf ∈ origins, (leaf.item == r) = false
  | [] => by simp [assign]
  | r :: rest => by
    rw [assign, List.forall_mem_cons, ← all_isNone_assign]
    cases hf : findFree [] r 0 origins with
    | some o =>
      obtain ⟨-, k, leaf, -, hk, he⟩ := findFree_eq_some hf
      refine ⟨fun h => absurd h (by simp), fun h => ?_⟩
      rw [h.1 leaf (List.mem_of_getElem? hk)] at he
      cases he
    | none =>
      refine ⟨fun h => ⟨fun leaf hl => ?_, h⟩, fun h => h.2⟩
      obtain ⟨k, hk⟩ := List.mem_iff_getElem?.1 hl
      rw [← Bool.not_eq_true]
      intro he
      obtain ⟨j, -, hj⟩ := exists_findFree hk he (List.not_mem_nil (a := 0 + k))
      rw [hf] at hj
      cases hj

theorem homeless_iff {results : List Item} : homeless origins results = true ↔
    results ≠ [] ∧ ∀ r ∈ results, ∀ leaf ∈ origins, (leaf.item == r) = false := by
  rw [homeless, Bool.and_eq_true, all_isNone_assign]
  simp

/-! ## Heirs at paths -/

def heirAt (origins : List Leaf) (results : List Item) (p : Path) : Option Item :=
  (origins.findIdx? (·.path == p)).bind (heir origins results)

theorem heirAt_of_getElem? {results : List Item} {leaf : Leaf} (h : origins.Pairwise Leaf.Apart)
    (ho : origins[o]? = some leaf) :
    heirAt origins results leaf.path = heir origins results o := by
  have hi : origins.findIdx? (·.path == leaf.path) = some o := by
    obtain ⟨hlt, rfl⟩ := List.getElem?_eq_some_iff.1 ho
    refine List.findIdx?_eq_some_iff_getElem.2 ⟨hlt, beq_self_eq_true _, fun j hj hp => ?_⟩
    have ha := List.pairwise_iff_getElem.1 h j o (Nat.lt_trans hj hlt) hlt hj
    exact Path.Apart.ne ha (eq_of_beq hp)
  rw [heirAt, hi, Option.bind_some]

theorem heirAt_of_not_mem {results : List Item} {p : Path}
    (h : ∀ leaf ∈ origins, leaf.path ≠ p) : heirAt origins results p = none := by
  rw [heirAt, List.findIdx?_eq_none_iff.2 fun leaf hl => beq_false_of_ne (h leaf hl)]
  rfl

/--
**The heirs of equal leaves, one after another, are the results equal to them, one after another**,
as long as there are any.
-/
theorem map_heirAt_class {results : List Item} (h : origins.Pairwise Leaf.Apart) (x : Item) :
    (origins.filter (·.item == x)).map (fun leaf => heirAt origins results leaf.path) =
      (List.range (origins.countP (·.item == x))).map fun i => (results.filter (x == ·))[i]? := by
  have go : ∀ pre post : List Leaf, origins = pre ++ post →
      (post.filter (·.item == x)).map (fun leaf => heirAt origins results leaf.path) =
        (List.range' (pre.countP (·.item == x)) (post.countP (·.item == x))).map
          fun i => (results.filter (x == ·))[i]? := by
    intro pre post
    induction post generalizing pre with
    | nil => intro _; rfl
    | cons leaf post ih =>
      intro ho
      have hrest := ih (pre ++ [leaf]) (by rw [ho, List.append_assoc]; rfl)
      rw [List.countP_append, List.countP_singleton] at hrest
      cases hx : leaf.item == x with
      | false =>
        rw [List.filter_cons_of_neg (by simp [hx]), List.countP_cons_of_neg (by simp [hx]), hrest,
          hx]
        rfl
      | true =>
        have hheir : heirAt origins results leaf.path =
            (results.filter (x == ·))[pre.countP (·.item == x)]? := by
          have hl : origins[pre.length]? = some leaf := by simp [ho]
          have ht : origins.take pre.length = pre := by simp [ho]
          have hb : ∀ r : Item, (leaf.item == r) = (x == r) := fun r => BEq.congr_left hx
          have hb' : ∀ l : Leaf, (l.item == leaf.item) = (l.item == x) :=
            fun l => BEq.congr_right hx
          rw [heirAt_of_getElem? h hl, heir, hl, Option.bind_some, ht, funext hb, funext hb']
        rw [List.filter_cons_of_pos (by simp [hx]), List.countP_cons_of_pos (by simp [hx]),
          List.map_cons, hrest, List.range'_succ, List.map_cons, hheir, hx]
        rfl
  rw [List.range_eq_range']
  exact go [] origins rfl

end Replant

end GraphQuery
