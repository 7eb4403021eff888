import GraphQuery.Proofs.Execution.Steps
import GraphQuery.Proofs.Flow.Pulls
import GraphQuery.Proofs.Tree.Leaves
import GraphQuery.Proofs.Tree.Regular
/-!
# Existence tests

An existence test asks a tree for its first leaf (`Run.settle`).  Every item has a leaf, so the test
succeeds when some sequence of the tree has an item, whatever is nested in that one; and the leaf
costs no more pulls than the first item does.  Transforms that stream can be done on any beginning of
a source, so what is pulled is the shortest beginning on which they hand something out
(`Run.settle_of_streaming`).
-/

namespace GraphQuery

/-! ## First leaves -/

/-- **Every item has a leaf**, however deep its fields nest. -/
theorem Item.leaves_ne_nil (item : Item) : item.leaves ≠ [] := by
  induction item using item_induction with
  | step item ih =>
    by_cases hl : item.isLeaf = true
    · rw [leaves_of_isLeaf hl]
      exact List.cons_ne_nil _ _
    · obtain ⟨⟨name, v⟩, hf, hn⟩ : ∃ f ∈ item.fields, f.2.nestsItems = true := by
        simpa [isLeaf] using hl
      cases v with
      | list vs =>
        obtain ⟨v, hv, hr⟩ := List.any_eq_true.1 hn
        cases v with
        | record inner =>
          obtain ⟨l, hm⟩ := List.exists_mem_of_ne_nil _ (ih name vs inner hf hv)
          obtain ⟨k, hk⟩ := List.mem_iff_getElem?.1 hv
          rw [leaves_eq, if_neg hl]
          exact List.ne_nil_of_mem
            (mem_leavesOfFields_iff.2 ⟨name, vs, k, inner, l, hf, hn, hk, hm, rfl⟩)
        | _ => cases hr
      | _ => cases hn

namespace Tree

variable {t : Tree} {f : Flow Item}

theorem upTo_flowOfLeaves (k : Nat) (f : Flow Item) : (flowOfLeaves f).upTo k =
    (f.upTo k).flatMap fun item => item.leaves.map Leaf.item := by
  obtain ⟨events⟩ := f
  simp only [flowOfLeaves, Flow.upTo]
  induction events generalizing k with
  | nil => simp
  | cons e rest ih =>
    cases e with
    | pull source =>
      cases k with
      | zero => rfl
      | succ k => exact ih k
    | yield item =>
      simp only [List.flatMap_cons, Flow.upToEvents_yields, ih, Flow.upToEvents_yield]
      rw [Item.takenApart_eq]

theorem pulls_flowOfLeaves (f : Flow Item) : (flowOfLeaves f).pulls = f.pulls := by
  obtain ⟨events⟩ := f
  induction events with
  | nil => rfl
  | cons e rest ih =>
    cases e with
    | pull source => exact congrArg (source :: ·) ih
    | yield item =>
      have hnone : (item.takenApart.map Event.yield).filterMap Flow.pulled? = [] := by
        simp [List.filterMap_eq_nil_iff, Flow.pulled?]
      rw [Flow.pulls_mk_yield, ← ih]
      simp only [flowOfLeaves, Flow.pulls, List.flatMap_cons, List.filterMap_append, hnone,
        List.nil_append]

theorem flatMap_leaves_ne_nil {items : List Item} :
    (items.flatMap fun item => item.leaves.map Leaf.item) ≠ [] ↔ items ≠ [] := by
  cases items with
  | nil => simp
  | cons item rest => simp [Item.leaves_ne_nil]

def probe (t : Tree) : Flow.Step Item := t.leafFlow.next

theorem isSome_probe (t : Tree) :
    t.probe.next.isSome = t.seqs.any fun s => !s.toList.isEmpty := by
  rw [Bool.eq_iff_iff, probe, Flow.isSome_next_iff, leafFlow, toList_flowOfLeaves,
    flatMap_leaves_ne_nil, itemFlow, Flow.toList_join]
  simp

/-- **The first leaf costs no more pulls than the first item.** -/
theorem isLeast_probe (h : t.itemFlow.toList ≠ []) :
    IsLeast {k | t.itemFlow.upTo k ≠ []} t.probe.pulls.length := by
  have hleaves : t.leafFlow.toList ≠ [] := by
    rwa [leafFlow, toList_flowOfLeaves, flatMap_leaves_ne_nil]
  have hset : {k | t.leafFlow.upTo k ≠ []} = {k | t.itemFlow.upTo k ≠ []} :=
    Set.ext fun k => by
      show t.leafFlow.upTo k ≠ [] ↔ t.itemFlow.upTo k ≠ []
      rw [leafFlow, upTo_flowOfLeaves, flatMap_leaves_ne_nil]
  rw [← hset]
  exact Flow.isLeast_pulls_next hleaves

theorem prefix_pulls_probe (t : Tree) : t.probe.pulls <+: t.itemFlow.pulls :=
  (Flow.prefix_pulls_next t.leafFlow).trans (pulls_flowOfLeaves t.itemFlow ▸ List.prefix_rfl)

theorem itemFlow_of_single (h : t.seqs = [.lazy f]) : t.itemFlow = f := by
  rw [itemFlow, h]
  exact congrArg Flow.mk (List.append_nil f.events)

end Tree

/-! ## Transforms that stream -/

/-- The transforms that hand out items while their input is still pulled. -/
inductive Streaming where
  | limit (count offset : Nat)
  | filter (p : Predicate)
  | project (fields : List String)
  | bind (bindings : List Binding)

namespace Streaming

def transform : Streaming → Transform
  | limit count offset => .limit count offset
  | filter p => .filter p
  | project fields => .project fields
  | bind bindings => .bind bindings

def onItems : Streaming → List Item → List Item
  | limit count offset, items => (items.drop offset).take count
  | filter p, items => items.filter (p.holds ·)
  | project fields, items => items.map (·.project fields)
  | bind bindings, items => items.map (Item.bind bindings)

/-- What a chain of transforms leaves of items, the first transform being done first. -/
def onAll (chain : List Streaming) (items : List Item) : List Item :=
  chain.foldl (fun items t => t.onItems items) items

def flowOf (chain : List Streaming) (f : Flow Item) : Flow Item :=
  chain.foldl (fun f t => t.transform.rewrite f) f

def onPlan (chain : List Streaming) (input : Plan) : Plan :=
  chain.foldl (fun p t => .transform t.transform p) input

/-- **What these transforms hand out for some pulls depends on what they are handed for them.** -/
theorem upTo_rewrite (t : Streaming) (f : Flow Item) (k : Nat) :
    (t.transform.rewrite f).upTo k = t.onItems (f.upTo k) := by
  cases t <;> simp [transform, Transform.rewrite, onItems]

theorem prefix_pulls_rewrite (t : Streaming) (f : Flow Item) :
    (t.transform.rewrite f).pulls <+: f.pulls := by
  cases t with
  | limit count offset =>
    exact (Flow.pulls_take_prefix _ _).trans (Flow.pulls_drop offset f ▸ List.prefix_rfl)
  | filter p => exact Flow.pulls_filter _ f ▸ List.prefix_rfl
  | project fields => exact Flow.pulls_map _ f ▸ List.prefix_rfl
  | bind bindings => exact Flow.pulls_map _ f ▸ List.prefix_rfl

theorem upTo_flowOf (chain : List Streaming) (f : Flow Item) (k : Nat) :
    (flowOf chain f).upTo k = onAll chain (f.upTo k) := by
  induction chain generalizing f with
  | nil => rfl
  | cons t rest ih => exact (ih _).trans (congrArg (onAll rest) (t.upTo_rewrite f k))

theorem prefix_pulls_flowOf (chain : List Streaming) (f : Flow Item) :
    (flowOf chain f).pulls <+: f.pulls := by
  induction chain generalizing f with
  | nil => exact List.prefix_rfl
  | cons t rest ih => exact (ih _).trans (t.prefix_pulls_rewrite f)

/-! ### Chains over a source -/

variable {chain : List Streaming} {source : Nat} {xs : List Item}

theorem prefix_pulls_ofSource :
    (flowOf chain (.ofSource source xs)).pulls <+: List.replicate xs.length source :=
  Flow.pulls_ofSource source xs ▸ prefix_pulls_flowOf chain _

theorem toList_ofSource : (flowOf chain (.ofSource source xs)).toList = onAll chain xs := by
  have hle : (flowOf chain (.ofSource source xs)).pulls.length ≤ xs.length :=
    prefix_pulls_ofSource.length_le.trans List.length_replicate.le
  rw [← Flow.upTo_of_le hle, upTo_flowOf, Flow.upTo_ofSource, List.take_length]

end Streaming

/-! ## The test -/

namespace Run

/-- Puts what is known to exist in place of a tree, depending on whether another one has a leaf. -/
def settle (found : Tree) : Run Unit :=
  update fun s => s.reset (.ofItems (Session.existence s.scope found.probe.next.isSome))

end Run

theorem Plan.run_exist_eq (b : Backend) (input : Plan) :
    run b (.exist input) = (do let found ← Run.operand (run b input); Run.settle found) := rfl

namespace Run

variable {m : Machine} {f : Flow Item}

theorem settle_apply (found : Tree) (m : Machine) : settle found m = .ok ()
    { m with session := m.session.reset (.ofItems (Session.existence m.session.scope
      (found.seqs.any fun s => !s.toList.isEmpty))) } := by
  rw [settle, update_apply, Tree.isSome_probe]

theorem transform_lazy (t : Streaming) (hs : m.session.tree.seqs = [.lazy f])
    (hc : m.session.cursor = none) : ∃ tree, tree.seqs = [.lazy (t.transform.rewrite f)] ∧
      transform t.transform m = .ok () { m with session := { m.session with tree } } := by
  have hseq : transformSeq t.transform (.lazy f) m.world.words =
      (.lazy (t.transform.rewrite f), m.world.words) := by
    cases t <;> rfl
  -- rewriting the tree is rewriting the list of its sequences, which is this one
  have hall := Tree.traverse_seqs (transformSeq t.transform) m.session.tree m.world.words
  rw [hs, Tree.traverseAll, hseq] at hall
  obtain ⟨htree, hwords⟩ := Prod.mk.inj hall
  refine ⟨_, htree.symm, ?_⟩
  rw [transform_apply, hc]
  simp only []
  rw [← hwords]
  rfl

def stream : List Streaming → Run Unit
  | [] => pure ()
  | t :: rest => do
    transform t.transform
    stream rest

theorem run_onPlan (b : Backend) (chain : List Streaming) (input : Plan) :
    Plan.run b (Streaming.onPlan chain input) = (do Plan.run b input; stream chain) := by
  induction chain generalizing input with
  | nil => exact (bind_pure _).symm
  | cons t rest ih => exact (ih (.transform t.transform input)).trans (bind_assoc _ _ _)

theorem stream_lazy (chain : List Streaming) (hs : m.session.tree.seqs = [.lazy f])
    (hc : m.session.cursor = none) : ∃ tree, tree.seqs = [.lazy (Streaming.flowOf chain f)] ∧
      stream chain m = .ok () { m with session := { m.session with tree } } := by
  induction chain generalizing m f with
  | nil => exact ⟨m.session.tree, hs, rfl⟩
  | cons t rest ih =>
    obtain ⟨first, hfirst, hm⟩ := transform_lazy t hs hc
    obtain ⟨tree, htree, hrest⟩ := ih (m := { m with session := { m.session with tree := first } })
      hfirst hc
    refine ⟨tree, htree, ?_⟩
    rw [stream, bind_apply, hm]
    exact hrest

/--
**An existence test is exact, and pulls no more than it must.**  It runs its input apart and settles
what came of it; its input may end in a chain of transforms.  It finds something when some sequence
of the tree has an item.  In a tree whose only sequence is a lazy source behind a chain of transforms
that stream, it pulls the shortest beginning of the source on which the chain hands something out, and
in any case no more than the source has.
-/
theorem settle_of_streaming (outer : Machine) :
    (∀ b input, Plan.run b (.exist input) = (do let found ← operand (Plan.run b input); settle found)) ∧
    (∀ b chain input,
      Plan.run b (Streaming.onPlan chain input) = (do Plan.run b input; stream chain)) ∧
    (∀ found : Tree, settle found outer = .ok () { outer with
      session := outer.session.reset (.ofItems (Session.existence outer.session.scope
        (found.seqs.any fun s => !s.toList.isEmpty))) }) ∧
    ∀ (chain : List Streaming) (source : Nat) (xs : List Item) (m : Machine),
      m.session.tree.seqs = [.lazy (.ofSource source xs)] → m.session.cursor = none →
      ∃ found, stream chain m = .ok () { m with session := { m.session with tree := found } } ∧
        settle found outer = .ok () { outer with
          session := outer.session.reset (.ofItems (Session.existence outer.session.scope
            (!(Streaming.onAll chain xs).isEmpty))) } ∧
        ∃ k ≤ xs.length, found.probe.pulls = List.replicate k source ∧
          (Streaming.onAll chain xs ≠ [] →
            IsLeast {k | Streaming.onAll chain (xs.take k) ≠ []} k) := by
  refine ⟨fun b input => Plan.run_exist_eq b input, fun b => run_onPlan b,
    fun found => settle_apply found outer, fun chain source xs m hs hc => ?_⟩
  obtain ⟨found, hfound, hm⟩ := stream_lazy chain hs hc
  have hflow : found.itemFlow = Streaming.flowOf chain (.ofSource source xs) :=
    Tree.itemFlow_of_single hfound
  have hpulls : found.probe.pulls <+: List.replicate xs.length source :=
    (Tree.prefix_pulls_probe found).trans (hflow ▸ Streaming.prefix_pulls_ofSource)
  obtain ⟨hle, hall⟩ := List.prefix_replicate_iff.1 hpulls
  refine ⟨found, hm, ?_, _, hle, hall, fun hne => ?_⟩
  · rw [settle_apply, hfound, List.any_cons, List.any_nil, Bool.or_false, Seq.toList,
      Streaming.toList_ofSource]
  · have hleast := Tree.isLeast_probe (t := found) (by rwa [hflow, Streaming.toList_ofSource])
    simpa only [hflow, Streaming.upTo_flowOf, Flow.upTo_ofSource] using hleast

/-- Of three items the second is the first that passes, and the third is not pulled. -/
theorem settle_of_streaming_second :
    let xs : List Item := [⟨[("n", .int 1)]⟩,
      ⟨[("n", .int 2), ("friend", .list [.record ⟨[(idField, .int 7)]⟩])]⟩, ⟨[("n", .int 3)]⟩]
    let chain : List Streaming :=
      [.limit 5 0, .filter (.compare .ge ["n"] [.int 2]), .project ["friend"]]
    let m : Machine := ⟨{ tree := .anon (.lazy (.ofSource 0 xs)) }, {}⟩
    m.session.tree.seqs = [.lazy (.ofSource 0 xs)] ∧ m.session.cursor = none ∧
    ∃ found, stream chain m = .ok () { m with session := { m.session with tree := found } } ∧
      settle found m = .ok () { m with session := m.session.reset (.ofItems
        (Session.existence none true)) } ∧
      found.probe.pulls = [0, 0] := by
  intro xs chain m
  obtain ⟨found, hm, hsettle, k, -, hpulls, hleast⟩ :=
    (settle_of_streaming m).2.2.2 chain 0 xs m rfl rfl
  have hk : IsLeast {k | Streaming.onAll chain (xs.take k) ≠ []} k := hleast (by decide +kernel)
  have htwo : Streaming.onAll chain (xs.take 2) ≠ [] := by decide +kernel
  have hone : Streaming.onAll chain (xs.take 1) = [] := by decide +kernel
  refine ⟨rfl, rfl, found, hm, hsettle, ?_⟩
  match k, hk.1, hk.2 htwo with
  | 0, h, _ => exact absurd rfl h
  | 1, h, _ => exact absurd hone h
  | 2, _, _ => exact hpulls

end Run

end GraphQuery
