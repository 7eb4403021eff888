import GraphQuery.Proofs.Execution.Heirs
import GraphQuery.Proofs.Execution.Pruning
import GraphQuery.Proofs.Tree.Replacement
/-!
# Replanting as a replacement of leaves

Results are put in one after another, and leaves are taken out one after another, each at its path.
All of this together replaces every leaf by its heir, takes out the leaves without one, and leaves
everything else as it was (`Replant.replant_leaves`).
-/

namespace GraphQuery

/-! ## Several leaves, one after another -/

abbrev Edit := Path × Option Item

def updateEach (edits : List Edit) (f : Path → Option Item) : Path → Option Item :=
  edits.foldl (fun f e => Function.update f e.1 e.2) f

def Tree.putEach (edits : List Edit) (t : Tree) : Tree := edits.foldl (fun t e => t.put e.1 e.2) t

theorem updateEach_of_ne {p : Path} : ∀ {edits : List Edit} {f : Path → Option Item},
    (∀ e ∈ edits, e.1 ≠ p) → updateEach edits f p = f p
  | [], _, _ => rfl
  | e :: rest, f, h => by
    rw [updateEach, List.foldl_cons, ← updateEach,
      updateEach_of_ne fun e' he' => h e' (List.mem_cons_of_mem e he'),
      Function.update_of_ne (h e List.mem_cons_self).symm]

theorem updateEach_of_mem {p : Path} {r : Option Item} : ∀ {edits : List Edit}
    {f : Path → Option Item}, edits.Pairwise (fun a b => a.1 ≠ b.1) → (p, r) ∈ edits →
      updateEach edits f p = r
  | [], _, _, h => by cases h
  | e :: rest, f, hp, h => by
    obtain ⟨hne, hp⟩ := List.pairwise_cons.1 hp
    rw [updateEach, List.foldl_cons, ← updateEach]
    rcases List.mem_cons.1 h with rfl | h
    · rw [updateEach_of_ne fun e' he' => (hne e' he').symm, Function.update_self]
    · exact updateEach_of_mem hp h

theorem KeptThrough.update {f : Path → Option Item} {leaves : List Leaf} {p : Path} {e : Edit}
    (h : KeptThrough f leaves p) (he : e.2 = none → (e.1.order p).isLE = false) :
    KeptThrough (Function.update f e.1 e.2) leaves p := by
  intro leaf hl ho
  by_cases hp : leaf.path = e.1
  · rw [hp, Function.update_self]
    cases hr : e.2 with
    | some r => rfl
    | none =>
      rw [hp, he hr] at ho
      cases ho
  · rw [Function.update_of_ne hp]
    exact h leaf hl ho

/-- **Leaves can be written to in any order and taken out from the last one to the first.** -/
theorem Tree.putEach_replaceLeaves {t : Tree} (h : t.Everywhere Item.isAddressable fun _ => true) :
    ∀ {edits : List Edit} {f : Path → Option Item},
      (∀ e ∈ edits, ∃ leaf ∈ t.leaves, leaf.path = e.1) →
      (∀ e ∈ edits, KeptThrough f t.leaves e.1) →
      edits.Pairwise (fun a b => a.2 = none → (a.1.order b.1).isLE = false) →
        (t.replaceLeaves f).putEach edits = t.replaceLeaves (updateEach edits f)
  | [], _, _, _, _ => rfl
  | e :: rest, f, hl, hk, hp => by
    obtain ⟨hpe, hp⟩ := List.pairwise_cons.1 hp
    obtain ⟨leaf, hm, hpath⟩ := hl e List.mem_cons_self
    have hput := put_replaceLeaves h hm (hpath ▸ hk e List.mem_cons_self) e.2
    rw [hpath] at hput
    rw [putEach, List.foldl_cons, ← putEach, hput,
      putEach_replaceLeaves h (fun e' he' => hl e' (List.mem_cons_of_mem e he'))
        (fun e' he' => (hk e' (List.mem_cons_of_mem e he')).update (hpe e' he')) hp]
    rfl

namespace Replant

variable {origins : List Leaf} {results : List Item}

/-! ## Replanting -/

def edits (origins : List Leaf) (results : List Item) : List Edit :=
  (placements origins results).map (fun a => (a.1, some a.2)) ++
    (removals origins results).map fun p => (p, none)

theorem prune_eq_putEach : ∀ (removed points : List Path) (t : Tree),
    (prune removed points t).2 = t.putEach (removed.map fun p => (p, none))
  | [], _, _ => rfl
  | _ :: rest, _, _ => prune_eq_putEach rest _ _

theorem prune_planted (results : List Item) (points : List Path) (into : Placed) :
    (prune (removals origins results) points (planted origins results into)).2 =
      into.tree.putEach (edits origins results) := by
  rw [prune_eq_putEach, planted, Tree.putAll, Tree.putEach, Tree.putEach, edits, List.foldl_append,
    List.foldl_map (l := placements origins results)]
  rfl

/-- **The edits write its heir to every leaf, and take out the leaves without one.** -/
theorem mem_edits {p : Path} {r : Option Item} : (p, r) ∈ edits origins results ↔
    ∃ (o : Nat) (leaf : Leaf), origins[o]? = some leaf ∧ leaf.path = p ∧
      heir origins results o = r := by
  rw [edits, List.mem_append, List.mem_map, List.mem_map]
  constructor
  · rintro (⟨⟨p', r'⟩, hm, he⟩ | ⟨p', hm, he⟩)
    · obtain ⟨s, o, leaf, ha, hr, ho, rfl⟩ := mem_placements.1 hm
      cases he
      exact ⟨o, leaf, ho, rfl, heir_eq_some.2
        (List.mem_iff_getElem?.2 ⟨s, List.getElem?_zip_eq_some.2 ⟨hr, ha⟩⟩)⟩
    · obtain ⟨o, leaf, ho, hn, rfl⟩ := mem_removals.1 hm
      cases he
      refine ⟨o, leaf, ho, rfl, Option.eq_none_iff_forall_ne_some.2 fun r hr => hn ?_⟩
      obtain ⟨s, hs⟩ := List.mem_iff_getElem?.1 (heir_eq_some.1 hr)
      exact List.mem_of_getElem? (List.getElem?_zip_eq_some.1 hs).2
  · rintro ⟨o, leaf, ho, rfl, rfl⟩
    cases hr : heir origins results o with
    | some r =>
      obtain ⟨s, hs⟩ := List.mem_iff_getElem?.1 (heir_eq_some.1 hr)
      obtain ⟨hs, ha⟩ := List.getElem?_zip_eq_some.1 hs
      exact .inl ⟨(leaf.path, r), mem_placements.2 ⟨s, o, leaf, ha, hs, ho, rfl⟩, rfl⟩
    | none =>
      refine .inr ⟨leaf.path, mem_removals.2 ⟨o, leaf, ho, fun hm => ?_, rfl⟩, rfl⟩
      obtain ⟨s, ha⟩ := List.mem_iff_getElem?.1 hm
      obtain ⟨-, -, result, -, hs, -⟩ := getElem?_assign ha
      rw [heir_eq_some.2 (List.mem_iff_getElem?.2 ⟨s, List.getElem?_zip_eq_some.2 ⟨hs, ha⟩⟩)] at hr
      cases hr

theorem pairwise_apart_edits (h : origins.Pairwise Leaf.Apart) :
    (edits origins results).Pairwise fun a b =>
      a.1.Apart b.1 ∧ (a.2 = none → (a.1.order b.1).isLE = false) := by
  rw [edits, List.pairwise_append, List.pairwise_map, List.pairwise_map]
  refine ⟨(pairwise_apart_placements h).imp fun ha => ⟨ha, fun he => by cases he⟩,
    (pairwise_removals h).imp fun ha => ⟨ha.1, fun _ => Path.not_isLE_of_apart ha.1 ha.2⟩, ?_⟩
  intro a ha b hb
  obtain ⟨a', ha', rfl⟩ := List.mem_map.1 ha
  obtain ⟨b', hb', rfl⟩ := List.mem_map.1 hb
  exact ⟨apart_removals h hb' a' ha', fun he => by cases he⟩

def ownPlaces (t : Tree) (p : Path) : Option Item :=
  if p ∈ t.leaves.map Leaf.path then t.itemAt? p else none

theorem updateEach_edits {t : Tree} (h : t.leaves.Pairwise Leaf.Apart) :
    updateEach (edits t.leaves results) (ownPlaces t) = heirAt t.leaves results := by
  have hne : (edits t.leaves results).Pairwise fun a b => a.1 ≠ b.1 :=
    (pairwise_apart_edits h).imp fun ha => ha.1.ne
  funext p
  -- no path is edited twice, so a leaf gets what its one edit says
  by_cases hp : ∃ leaf ∈ t.leaves, leaf.path = p
  · obtain ⟨leaf, hl, rfl⟩ := hp
    obtain ⟨o, ho⟩ := List.mem_iff_getElem?.1 hl
    rw [heirAt_of_getElem? h ho]
    exact updateEach_of_mem hne (mem_edits.2 ⟨o, leaf, ho, rfl, rfl⟩)
  · have hleaf : ∀ leaf ∈ t.leaves, leaf.path ≠ p := fun leaf hl he => hp ⟨leaf, hl, he⟩
    rw [heirAt_of_not_mem hleaf, updateEach_of_ne, ownPlaces, if_neg]
    · rw [List.mem_map]
      exact hp
    · rintro ⟨q, r⟩ hm rfl
      obtain ⟨o, leaf, ho, hpath, -⟩ := mem_edits.1 hm
      exact hleaf leaf (List.mem_of_getElem? ho) hpath

theorem putEach_edits {t : Tree} (h : t.Everywhere Item.isAddressable fun _ => true)
    (results : List Item) :
    t.force.putEach (edits t.leaves results) = t.replaceLeaves (heirAt t.leaves results) := by
  have hself : ∀ leaf ∈ t.leaves, ownPlaces t leaf.path = some leaf.item := fun leaf hl => by
    rw [ownPlaces, if_pos (List.mem_map_of_mem hl), Tree.itemAt?_of_mem_leaves h hl]
  have ha := Tree.pairwise_apart_leaves h
  rw [← Tree.replaceLeaves_self hself, Tree.putEach_replaceLeaves h, updateEach_edits ha]
  · intro e he
    obtain ⟨o, leaf, ho, hp, -⟩ := mem_edits.1 he
    exact ⟨leaf, List.mem_of_getElem? ho, hp⟩
  · intro e _ leaf hl _
    rw [hself leaf hl]
    rfl
  · exact (pairwise_apart_edits ha).imp And.right

/--
**Replanting exchanges leaves for results one to one, by identity.**  It refuses just when there are
results and none of them equals a leaf.  Otherwise every leaf is replaced by its heir or taken out,
and everything else stays as it was.  The heirs of the leaves that equal an item are, one after
another, the results that equal it, as long as there are any.
-/
theorem replant_leaves {t : Tree} (h : t.Sound) (results : List Item) (sub c : Option Cursor) :
    (replant? t.leaves results sub ⟨t.force, c⟩ = none ↔
      results ≠ [] ∧ ∀ r ∈ results, ∀ leaf ∈ t.leaves, (leaf.item == r) = false) ∧
    (∀ out, replant? t.leaves results sub ⟨t.force, c⟩ = some out →
      out.tree = t.replaceLeaves (heirAt t.leaves results)) ∧
    ∀ x : Item, (t.leaves.filter (·.item == x)).map (fun l => heirAt t.leaves results l.path) =
      (List.range (t.leaves.countP (·.item == x))).map fun i => (results.filter (x == ·))[i]? := by
  refine ⟨?_, fun out ho => ?_, map_heirAt_class (Tree.pairwise_apart_leaves h.addressable)⟩
  · rw [← homeless_iff, replant?_eq]
    split
    · simp [*]
    · simp [*]
  · rw [replant?_eq] at ho
    split at ho
    · cases ho
    · cases ho
      exact (prune_planted _ _ _).trans (putEach_edits h.addressable results)

/-- Of two equal leaves the first one is replaced, and the other leaves are taken out. -/
theorem replant_leaves_repeated :
    let renamed : Item := (Record.ofId (.int 1)).set "name" (.string "first")
    let t : Tree := .ofItems [.ofId (.int 1), .ofId (.int 2), .ofId (.int 1)]
    let results : List Item := [renamed, .ofId (.int 3)]
    let out : Placed := ⟨.ofItems [renamed], none⟩
    t.Sound ∧ replant? t.leaves results none ⟨t.force, none⟩ = some out ∧
      out.tree = t.replaceLeaves (heirAt t.leaves results) := by
  intro renamed t results out
  have h : t.Sound := by
    show ∀ items ∈ t.seqs, ∀ item ∈ items.toList,
      item.everywhere Item.isSound (fun _ => true) = true
    decide
  have hout : replant? t.leaves results none ⟨t.force, none⟩ = some out := rfl
  exact ⟨h, hout, (replant_leaves h results none none).2.1 out hout⟩

end Replant

end GraphQuery
