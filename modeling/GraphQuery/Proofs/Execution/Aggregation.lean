import GraphQuery.Endpoint
import GraphQuery.Proofs.Execution.Existence
import GraphQuery.Proofs.Tree.Flattening
/-!
# Aggregation

Aggregating puts the leaves of a tree in its place, as one lazy sequence under the anonymous key.
Every item of every sequence has a share in the leaves, and the leaves are their own leaves
(`Tree.leafFlow_of_leafFlow`).  So a second aggregation changes nothing, the flow with its pulls
included, and the flat answer is the same before and after.
-/

namespace GraphQuery

namespace Tree

variable {t t₀ : Tree} {q : Path} {s : Seq Item}

theorem mem_leaves_of_subtree? {leaf : Leaf} (h : t.subtree? q = some t₀) (hl : leaf ∈ t₀.leaves) :
    ⟨q ++ leaf.path, leaf.item⟩ ∈ t.leaves := by
  induction q, t using subtree_induction with
  | nil t =>
    cases h
    exact hl
  | entry i p entries key t he ih =>
    rw [subtree?_entry, he] at h
    rw [leaves_map, mem_indexedLeaves]
    exact ⟨i, (key, t), ⟨p ++ leaf.path, leaf.item⟩, he, ih h, by rw [Nat.zero_add]; rfl⟩
  | stray p t hp =>
    rw [hp] at h
    cases h

/-- **Every item of every sequence has a leaf**: below its own path there is one. -/
theorem exists_leaf_of_item {k : Nat} {item : Item} (hs : t.seqAt? q = some s)
    (hk : s.toList[k]? = some item) :
    ∃ leaf ∈ item.leaves, ⟨q ++ .item k :: leaf.path, leaf.item⟩ ∈ t.leaves := by
  obtain ⟨leaf, hleaf⟩ := List.exists_mem_of_ne_nil _ item.leaves_ne_nil
  have hseq : leaf.under (.item k) ∈ (seq s).leaves := by
    rw [leaves_seq, mem_indexedLeaves]
    exact ⟨k, item, leaf, hk, hleaf, by rw [Nat.zero_add]⟩
  exact ⟨leaf, hleaf, mem_leaves_of_subtree? (seqAt?_eq_some.1 hs) hseq⟩

/-! ## Leaves of leaves -/

theorem itemFlow_anon_lazy (f : Flow Item) : (anon (.lazy f)).itemFlow = f := itemFlow_of_single rfl

theorem toList_itemFlow_anon (s : Seq Item) : (anon s).itemFlow.toList = s.toList := by
  rw [toList_itemFlow, anon, seqs, seqsOfEntries, seqs, seqsOfEntries, List.append_nil,
    List.flatMap_singleton]

theorem map_item_leaves_anon (h : ∀ item ∈ s.toList, item.isLeaf = true) :
    (anon s).leaves.map Leaf.item = s.toList := by
  have hone : ∀ item ∈ s.toList, item.leaves.map Leaf.item = [item] := fun item hi => by
    rw [Item.map_item_leaves, if_pos (h item hi)]
  rw [map_item_leaves, toList_itemFlow_anon, List.flatMap_congr hone, List.flatMap_singleton']

/-- **The flow of leaves of a flow of leaves is that flow**, event by event. -/
theorem leafFlow_of_leafFlow (t : Tree) : (anon (.lazy t.leafFlow)).leafFlow = t.leafFlow := by
  rw [leafFlow, itemFlow_anon_lazy, flowOfLeaves_of_leaves fun _ => isLeaf_of_mem_leafFlow]

end Tree

namespace Session

def gather (s : Session) : Session := s.reset (.anon (.lazy s.tree.leafFlow))

theorem gather_gather (s : Session) : s.gather.gather = s.gather :=
  congrArg (fun f => s.reset (.anon (.lazy f))) s.tree.leafFlow_of_leafFlow

theorem flat_gather (s : Session) : s.gather.flat = s.flat :=
  congrArg (fun f : Flow Item => pruneValues (f.toList.map .record)) s.tree.leafFlow_of_leafFlow

end Session

namespace Plan

variable {b : Backend} {p : Plan} {m m' : Machine}

theorem run_aggregate_eq (b : Backend) (p : Plan) :
    run b (.aggregate p) = (do run b p; Run.update Session.gather) := rfl

theorem run_aggregate_aggregate (b : Backend) (p : Plan) :
    run b (.aggregate (.aggregate p)) = run b (.aggregate p) := by
  funext m
  rw [run_aggregate_eq b (.aggregate p), run_aggregate_eq b p, Run.bind_apply, Run.bind_apply]
  cases run b p m with
  | error e m' => rfl
  | ok _ m' =>
    show Run.update Session.gather { m' with session := m'.session.gather } = _
    rw [Run.update_apply, Session.gather_gather]
    rfl

theorem run_aggregate_of_ok (h : run b p m = .ok () m') :
    run b (.aggregate p) m = .ok () { m' with session := m'.session.gather } :=
  run_aggregate.2 ⟨m', h, rfl⟩

/--
**Walking a tree and taking it apart meet the same leaves, and aggregating settles on them.**  The
flow of leaves hands out the items that a walk meets, in the same order; every item of every sequence
contributes to them, and each is a leaf itself.  Walking the anonymous sequence of these leaves, or
taking it apart, gives them back.  So aggregating twice is aggregating once, whether the input fails
or not, and aggregating leaves the flat answer as it is.
-/
theorem aggregate_settles (b : Backend) (p : Plan) :
    (∀ t : Tree, t.leafFlow.toList = t.leaves.map Leaf.item ∧
      (∀ q s k item, t.seqAt? q = some s → s.toList[k]? = some item →
        ∃ leaf ∈ item.leaves, ⟨q ++ .item k :: leaf.path, leaf.item⟩ ∈ t.leaves) ∧
      (∀ leaf ∈ t.leaves, leaf.item.isLeaf = true) ∧
      (∀ s : Seq Item, s.toList = t.leaves.map Leaf.item →
        (Tree.anon s).leaves.map Leaf.item = s.toList ∧
          (Tree.anon s).leafFlow.toList = s.toList) ∧
      (Tree.anon (.lazy t.leafFlow)).leafFlow = t.leafFlow) ∧
    run b (.aggregate (.aggregate p)) = run b (.aggregate p) ∧
    ∀ m m', run b p m = .ok () m' → ∃ after, run b (.aggregate p) m = .ok () after ∧
      after.session.flat = m'.session.flat ∧
      after.session.tree.leaves.map Leaf.item = m'.session.tree.leaves.map Leaf.item := by
  have hwalk : ∀ (t : Tree) (s : Seq Item), s.toList = t.leaves.map Leaf.item →
      (Tree.anon s).leaves.map Leaf.item = s.toList := fun t s hs =>
    Tree.map_item_leaves_anon fun item hi => by
      obtain ⟨leaf, hl, rfl⟩ := List.mem_map.1 (hs ▸ hi)
      exact Tree.isLeaf_of_mem_leaves hl
  refine ⟨fun t => ⟨t.toList_leafFlow, fun q s k item => Tree.exists_leaf_of_item,
      fun leaf => Tree.isLeaf_of_mem_leaves, fun s hs => ⟨hwalk t s hs, ?_⟩,
      t.leafFlow_of_leafFlow⟩,
    run_aggregate_aggregate b p, fun m m' h => ⟨_, run_aggregate_of_ok h, ?_, ?_⟩⟩
  · rw [Tree.toList_leafFlow, hwalk t s hs]
  · exact m'.session.flat_gather
  · rw [← Tree.toList_leafFlow m'.session.tree]
    exact hwalk m'.session.tree (.lazy m'.session.tree.leafFlow)
      m'.session.tree.toList_leafFlow

/-- Of a list with a number, a friend and a record without an identifier the two records are left. -/
theorem aggregate_settles_mixed :
    let b : Backend := .ofFunctions (fun _ => .ok []) fun _ _ => .ok []
    let friends : List Value :=
      [.int 5, .record (.ofId (.int 2)), .record ⟨[("since", .int 1999)]⟩]
    let p : Plan := .literal [.record ⟨[(idField, .int 1), ("friend", .list friends)]⟩]
    ∃ m after, run b p ⟨{}, {}⟩ = .ok () m ∧ run b (.aggregate p) ⟨{}, {}⟩ = .ok () after ∧
      m.session.tree.leaves.map Leaf.item = [.ofId (.int 2), ⟨[("since", .int 1999)]⟩] ∧
      after.session.tree.leaves.map Leaf.item = m.session.tree.leaves.map Leaf.item ∧
      after.session.flat = m.session.flat := by
  intro b friends p
  obtain ⟨after, hafter, hflat, hleaves⟩ :=
    (aggregate_settles b p).2.2 ⟨{}, {}⟩ _ rfl
  exact ⟨_, after, rfl, hafter, rfl, hleaves, hflat⟩

end Plan

end GraphQuery
