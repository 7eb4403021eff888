import Mathlib.Data.List.Basic
import GraphQuery.Proofs.Execution.Attaching
import GraphQuery.Proofs.Execution.InPlace
/-!
# Applying an attachment

Attaching edges to every leaf and applying a subquery that attaches edges to every leaf come to the
same (`Plan.run_apply_assocHere`).  The subquery works on copies of the leaves in a sequence of
their own, where the leaf at position `k` has the path of an entry and an item; its results match
their leaves, so they go back in their order, and the points go with them.
-/

namespace GraphQuery

namespace Tree

theorem putAll_ofItems : ∀ (done items results : List Item), results.length = items.length →
    (ofItems (done ++ items)).putAll
      ((results.zipIdx done.length).map fun a => ([.entry 0, .item a.2], a.1)) =
        ofItems (done ++ results)
  | done, [], [], _ => rfl
  | done, item :: items, result :: results, h => by
    have ih := putAll_ofItems (done ++ [result]) items results (Nat.succ.inj h)
    simp only [List.append_assoc, List.length_append, List.length_singleton] at ih
    rw [List.zipIdx_cons, List.map_cons, putAll_cons, changeItem_middle]
    exact ih

theorem indexedLeaves_of_isLeaf : ∀ {items : List Item} (k : Nat),
    (∀ item ∈ items, item.isLeaf = true) →
      indexedLeaves .item Item.leaves k items = (items.zipIdx k).map fun a => ⟨[.item a.2], a.1⟩
  | [], _, _ => rfl
  | item :: rest, k, h => by
    rw [indexedLeaves, Item.leaves_of_isLeaf (h item List.mem_cons_self), List.zipIdx_cons,
      indexedLeaves_of_isLeaf (k + 1) fun x hx => h x (List.mem_cons_of_mem item hx)]
    rfl

theorem leaves_ofItems {items : List Item} (h : ∀ item ∈ items, item.isLeaf = true) :
    (ofItems items).leaves = items.zipIdx.map fun a => ⟨[.entry 0, .item a.2], a.1⟩ := by
  have hi : indexedLeaves .item Item.leaves 0 (Seq.buffered items).toList =
      items.zipIdx.map fun a => ⟨[.item a.2], a.1⟩ := indexedLeaves_of_isLeaf 0 h
  rw [ofItems, leaves_anon, hi, List.map_map]
  rfl

end Tree

namespace Edges

variable {b : Backend} {type : String} {as : Answered}

def own (as : Answered) : Answered :=
  as.zipIdx.map fun a => (⟨[.entry 0, .item a.2], a.1.1.item⟩, a.1.2)

def results (type : String) (as : Answered) : List (Leaf × Item) :=
  as.map fun a => (a.1, attached type a.1.item a.2)

theorem attachments_own : attachments type (own as) =
    ((results type as).map Prod.snd).zipIdx.map fun a => ([.entry 0, .item a.2], a.1) := by
  rw [attachments, own, results, List.map_map, List.map_map, List.zipIdx_map, List.map_map]
  rfl

theorem answeredPaths_own (h : Replant.Matched (results type as)) :
    (answeredPaths (own as)).filterMap
        (Replant.outward ((results type as).map Prod.fst)
          (Replant.assign ((results type as).map Prod.fst) [] ((results type as).map Prod.snd))) =
      answeredPaths as := by
  have ho : ∀ a ∈ as.zipIdx, (a.1.2.map fun _ => [.entry 0, .item a.2]).bind
      (Replant.outward ((results type as).map Prod.fst)
        (Replant.assign ((results type as).map Prod.fst) [] ((results type as).map Prod.snd))) =
      a.1.2.map fun _ => a.1.1.path := by
    rintro ⟨⟨leaf, answer⟩, j⟩ ha
    rw [List.mem_zipIdx_iff_getElem?] at ha
    cases answer with
    | none => rfl
    | some edges =>
      have hj : (results type as)[j]? = some (leaf, attached type leaf.item (some edges)) := by
        rw [results, List.getElem?_map, ha]
        rfl
      rw [Option.map_some, Option.bind_some, Replant.outward_pairs h hj, List.append_nil]
      rfl
  rw [answeredPaths, own, List.filterMap_map, List.filterMap_filterMap]
  refine (List.filterMap_congr ho).trans ?_
  show as.zipIdx.filterMap ((fun a => a.2.map fun _ => a.1.path) ∘ Prod.fst) = _
  rw [← List.filterMap_map, List.zipIdx_map_fst]
  rfl

end Edges

/-! ## Applying an attachment -/

namespace Edges

variable {b : Backend} {type : String} {as : Answered}

theorem matched_results {leaves : List Leaf} {w w' : World} {answers : List (Option (List Item))}
    (h : consult b type (leaves.map Leaf.item) w = some (answers, w')) :
    Replant.Matched (results type (leaves.zip answers)) := by
  intro a ha
  obtain ⟨c, hc, rfl⟩ := List.mem_map.1 ha
  exact beq_attached c.1.item (hasId_of_consult h c hc)

theorem own_zip : ∀ (leaves : List Leaf) (answers : List (Option (List Item))) (k : Nat),
    answers.length = leaves.length →
      (((leaves.map Leaf.item).zipIdx k).map fun a =>
        (⟨[.entry 0, .item a.2], a.1⟩ : Leaf)).zip answers =
      ((leaves.zip answers).zipIdx k).map fun a => (⟨[.entry 0, .item a.2], a.1.1.item⟩, a.1.2)
  | [], [], _, _ => rfl
  | _ :: leaves, _ :: answers, k, h =>
    congrArg (List.cons _) (own_zip leaves answers (k + 1) (Nat.succ.inj h))

end Edges

namespace Plan

variable {b : Backend} {type : String} {q : Plan} {m m' : Machine}

theorem replant_answered {answers : List (Option (List Item))} {w w' : World}
    (hc : Edges.consult b type (m.session.tree.leaves.map Leaf.item) w = some (answers, w')) :
    m.replant ⟨{ m.descend.session with
        tree := .ofItems ((Edges.results type (m.session.tree.leaves.zip answers)).map Prod.snd)
        cursor := some ⟨Edges.answeredPaths (Edges.own (m.session.tree.leaves.zip answers)),
          type⟩ }, w'⟩ =
      ⟨{ m.session with
        tree := m.session.tree.force.putAll
          (Edges.attachments type (m.session.tree.leaves.zip answers))
        cursor := some ⟨Edges.answeredPaths (m.session.tree.leaves.zip answers), type⟩ }, w'⟩ := by
  have hm := Edges.matched_results hc
  have hl : (Edges.results type (m.session.tree.leaves.zip answers)).map Prod.fst =
      m.session.tree.leaves := by
    have hn := Edges.length_consult hc
    rw [List.length_map] at hn
    rw [Edges.results, List.map_map]
    exact List.map_fst_zip (Nat.le_of_eq hn.symm)
  have hp := Edges.answeredPaths_own hm
  have hr := Replant.replantOrReplace_pairs hm
    (some ⟨Edges.answeredPaths (Edges.own (m.session.tree.leaves.zip answers)), type⟩) m.placed
  rw [Replant.carried, hp, hl] at hr
  unfold Machine.replant
  have hplace : Replant.place m.session.tree.leaves { m.descend.session with
      tree := .ofItems ((Edges.results type (m.session.tree.leaves.zip answers)).map Prod.snd)
      cursor := some ⟨Edges.answeredPaths (Edges.own (m.session.tree.leaves.zip answers)),
        type⟩ } m.placed = _ := hr
  rw [hplace, Edges.results, List.map_map]
  rfl

theorem attach_descend (h : m.session.tree.Everywhere Item.isAddressable fun _ => true) :
    (∃ child, Run.attach b type m.descend = .ok () child ∧ m' = m.replant child) ↔
      Run.attach b type m = .ok () m' := by
  have hleaf : ∀ item ∈ m.session.tree.leaves.map Leaf.item, item.isLeaf = true := by
    intro item hi
    obtain ⟨leaf, hl, rfl⟩ := List.mem_map.1 hi
    exact Tree.isLeaf_of_mem_leaves hl
  have hd : m.descend.session.tree.Everywhere Item.isAddressable fun _ => true := by
    show (Tree.map [(.anon, .seq (.buffered (m.session.tree.leaves.map Leaf.item)))]).Everywhere _ _
    rw [Tree.everywhere_map]
    intro e he
    cases List.mem_singleton.1 he
    rw [Tree.everywhere_seq]
    intro item hi
    obtain ⟨leaf, hl, rfl⟩ := List.mem_map.1 hi
    exact Tree.everywhere_of_mem_leaves h hl
  have hls : m.descend.session.tree.leaves = _ := Tree.leaves_ofItems hleaf
  have hi : m.descend.session.tree.leaves.map Leaf.item = m.session.tree.leaves.map Leaf.item := by
    rw [hls, List.map_map]
    exact List.zipIdx_map_fst 0 _
  -- both sides consult the backend about the same items, and so get the same answers
  have hchild : ∀ answers w, Edges.consult b type (m.session.tree.leaves.map Leaf.item) m.world =
      some (answers, w) →
      (⟨{ m.descend.session with
        tree := m.descend.session.tree.force.putAll
          (Edges.attachments type (m.descend.session.tree.leaves.zip answers))
        cursor := some ⟨Edges.answeredPaths (m.descend.session.tree.leaves.zip answers),
          type⟩ }, w⟩ : Machine) =
      ⟨{ m.descend.session with
        tree := .ofItems ((Edges.results type (m.session.tree.leaves.zip answers)).map Prod.snd)
        cursor := some ⟨Edges.answeredPaths (Edges.own (m.session.tree.leaves.zip answers)),
          type⟩ }, w⟩ := fun answers w hc => by
    have hn := Edges.length_consult hc
    rw [List.length_map] at hn
    rw [hls, Edges.own_zip _ _ 0 hn, ← Edges.own, Edges.attachments_own]
    have ht := Tree.putAll_ofItems [] (m.session.tree.leaves.map Leaf.item)
      ((Edges.results type (m.session.tree.leaves.zip answers)).map Prod.snd)
      (by simp [Edges.results, hn])
    rw [List.nil_append, List.nil_append] at ht
    rw [← ht]
    rfl
  rw [Run.attach_answered h.isOpen]
  constructor
  · rintro ⟨child, hs, rfl⟩
    obtain ⟨answers, w, hc, rfl⟩ := (Run.attach_answered hd.isOpen).1 hs
    rw [hi] at hc
    rw [hchild answers w hc]
    exact ⟨answers, w, hc, replant_answered hc⟩
  · rintro ⟨answers, w, hc, rfl⟩
    refine ⟨_, (Run.attach_answered hd.isOpen).2 ⟨answers, w, by rw [hi]; exact hc, rfl⟩, ?_⟩
    rw [hchild answers w hc, replant_answered hc]

/--
**Applying an attachment is attaching**, on a tree whose records have distinct field names and
scalar identifiers at every depth: the one run succeeds when the other does, and leaves the same
tree, the same cursor and the same calls.
-/
theorem run_apply_assocHere
    (h : ∀ mq, run b q m = .ok () mq → mq.session.tree.Sound) :
    run b (.apply (.assocHere type) q) m = .ok () m' ↔ run b (.assoc type q) m = .ok () m' := by
  rw [run_apply, run_assoc]
  constructor
  · rintro ⟨mq, hq, hs⟩
    exact ⟨mq, hq, (attach_descend (h mq hq).addressable).1 hs⟩
  · rintro ⟨mq, hq, hs⟩
    exact ⟨mq, hq, (attach_descend (h mq hq).addressable).2 hs⟩

/-- Friends of the same item twice, next to a record that has no identifier. -/
theorem run_apply_assocHere_friends :
    let b : Backend := .ofFunctions (fun _ => .ok []) fun _ id => .ok [Record.ofId id]
    let input : Plan := .literal [.int 1, .int 1, .record ⟨[("x", .int 2)]⟩]
    (∀ mq, run b input ⟨.empty, {}⟩ = .ok () mq → mq.session.tree.Sound) ∧
      ∃ m, run b (.assoc "friend" input) ⟨.empty, {}⟩ = .ok () m ∧
        run b (.apply (.assocHere "friend") input) ⟨.empty, {}⟩ = .ok () m ∧
        pointsOf m.session.cursor = [[.entry 0, .item 0], [.entry 0, .item 1]] := by
  intro b input
  have h : ∀ mq, run b input ⟨.empty, {}⟩ = .ok () mq → mq.session.tree.Sound := by
    intro mq hq
    cases hq
    intro s hs item hi
    cases List.mem_singleton.1 hs
    revert item
    decide
  exact ⟨h, _, rfl, (run_apply_assocHere h).2 rfl, rfl⟩

end Plan

end GraphQuery
