import GraphQuery.Proofs.Execution.Attaching
/-!
# Where the edges of a lookup go

Attaching edges asks the backend about every identified leaf, in order, and about nothing else
(`Edges.calls_of_consult`).  What is answered is attached to the leaf, and the cursor has one point
for every question, as long as each field on the way to a leaf can be written
(`Plan.run_assoc_attached`).  An identifier that nests items is a way to leaves that cannot be
written: these are asked about, and the answers are lost.
-/

namespace GraphQuery

namespace Edges

variable {b : Backend} {type : String}

/-- The questions about some items: those with an identifier, in order. -/
def questions (type : String) (items : List Item) : List Call :=
  items.filterMap fun item => item.id?.map (.edges type)

theorem questions_cons (item : Item) (rest : List Item) :
    questions type (item :: rest) =
      (item.id?.map (Call.edges type)).toList ++ questions type rest := by
  rw [questions, List.filterMap_cons]
  cases item.id? <;> rfl

theorem Turn.calls {item : Item} {answer : Option (List Item)} {w v : World}
    (h : Turn b type item w answer v) :
    v.calls = w.calls ++ (item.id?.map (Call.edges type)).toList := by
  cases h with
  | silent hid =>
    rw [hid]
    exact (List.append_nil _).symm
  | asked id edges hid he =>
    rw [hid]
    rfl

/-- **Every question is asked once.** -/
theorem calls_of_consult : ∀ {items : List Item} {w w' : World}
    {answers : List (Option (List Item))}, consult b type items w = some (answers, w') →
      w'.calls = w.calls ++ questions type items
  | [], _, _, _, h => by
    cases h
    exact (List.append_nil _).symm
  | item :: rest, w, w', answers, h => by
    obtain ⟨answer, more, v, rfl, hturn, hr⟩ := consult_cons h
    rw [calls_of_consult hr, hturn.calls, questions_cons, List.append_assoc]

/-- **An item with an identifier gets what the backend answers at its turn.** -/
theorem answer_of_consult {item : Item} {id : Value} (hid : item.id? = some id) {post : List Item} :
    ∀ {pre : List Item} {w w' : World} {answers : List (Option (List Item))},
      consult b type (pre ++ item :: post) w = some (answers, w') →
        ∃ edges, b.edges (w.calls ++ questions type pre) type id = .ok edges ∧
          answers[pre.length]? = some (some edges)
  | [], w, w', answers, h => by
    obtain ⟨answer, more, v, rfl, hturn, -⟩ := consult_cons h
    cases hturn with
    | silent hn =>
      rw [hid] at hn
      cases hn
    | asked id' edges hid' he =>
      cases hid.symm.trans hid'
      refine ⟨edges, ?_, rfl⟩
      rw [← he]
      exact congrArg (b.edges · type id) (List.append_nil _)
  | other :: pre, w, w', answers, h => by
    obtain ⟨answer, more, v, rfl, hturn, hr⟩ := consult_cons h
    rw [questions_cons, ← List.append_assoc, ← hturn.calls]
    exact answer_of_consult hid hr

theorem answeredPaths_of_consult : ∀ {leaves : List Leaf} {w w' : World}
    {answers : List (Option (List Item))},
    consult b type (leaves.map Leaf.item) w = some (answers, w') →
      answeredPaths (leaves.zip answers) =
        (leaves.filter fun leaf => leaf.item.hasId).map Leaf.path
  | [], _, _, _, h => by
    cases h
    rfl
  | leaf :: rest, w, w', answers, h => by
    obtain ⟨answer, more, v, rfl, hturn, hr⟩ := consult_cons h
    have ih := answeredPaths_of_consult hr
    rw [List.filter_cons, Record.hasId]
    cases hturn with
    | silent hid =>
      rw [hid]
      exact ih
    | asked id edges hid he =>
      rw [hid]
      exact congrArg (leaf.path :: ·) ih

end Edges

namespace Plan

open Edges

/--
**A successful association asks about each identified leaf of its input, in order.  When every
field on the way to a leaf can be written, each of these leaves holds what was answered for it, in
the place where it was, and the cursor has one point for each.**
-/
theorem run_assoc_attached {b : Backend} {type : String} {q : Plan} {m m' : Machine}
    (ht : type ≠ idField) (h : run b (.assoc type q) m = .ok () m') :
    ∃ mq, run b q m = .ok () mq ∧
      m'.world.calls =
        mq.world.calls ++ questions type (mq.session.tree.leaves.map Leaf.item) ∧
      (mq.session.tree.Everywhere Item.isOpen (fun _ => true) →
        m'.session.cursor = some ⟨(mq.session.tree.leaves.filter fun leaf =>
          leaf.item.hasId).map Leaf.path, type⟩ ∧
        ∀ pre leaf post id, mq.session.tree.leaves = pre ++ leaf :: post →
          leaf.item.id? = some id → ∃ edges item,
            b.edges (mq.world.calls ++ questions type (pre.map Leaf.item)) type id = .ok edges ∧
            m'.session.tree.itemAt? leaf.path = some item ∧
            ∀ name, item.get? name =
              if name = type then some (.list (edges.map .record)) else leaf.item.get? name) := by
  obtain ⟨mq, hq, ha⟩ := run_assoc.1 h
  refine ⟨mq, hq, ?_, fun hopen => ?_⟩
  · -- what is asked does not depend on where the answers go
    obtain ⟨found, w, hl, rfl⟩ := Run.attach_eq_ok.1 ha
    obtain ⟨answers, hc, -⟩ := lookup_eq_ok.1 hl
    exact calls_of_consult hc
  obtain ⟨answers, w, hc, rfl⟩ := (Run.attach_answered hopen).1 ha
  refine ⟨by rw [answeredPaths_of_consult hc], fun pre leaf post id hls hid => ?_⟩
  rw [hls, List.map_append, List.map_cons] at hc
  obtain ⟨edges, he, hat⟩ := answer_of_consult hid hc
  have hz : (leaf, some edges) ∈ mq.session.tree.leaves.zip answers := by
    rw [List.length_map] at hat
    refine List.mem_of_getElem? (List.getElem?_zip_eq_some.2 ⟨?_, hat⟩)
    rw [hls, List.getElem?_append_right (Nat.le_refl _), Nat.sub_self]
    rfl
  refine ⟨edges, _, he, itemAt?_attachments hopen hz, fun name => ?_⟩
  exact Record.get?_set leaf.item type _ (fun hn => ht hn.1) name

/-- The pets of two friends, below the item whose friends they are. -/
theorem run_assoc_attached_friends :
    let b : Backend := .ofFunctions (fun _ => .ok []) fun type _ =>
      .ok (if type = "friend" then [.ofId (.int 2), .ofId (.int 3)] else [.ofId (.int 7)])
    let q : Plan := .assoc "friend" (.literal [.int 1])
    let path : Nat → Path := fun k => [.entry 0, .item 0, .field "friend", .item k]
    "pet" ≠ idField ∧ ∃ m', run b (.assoc "pet" q) ⟨.empty, {}⟩ = .ok () m' ∧
      m'.session.cursor = some ⟨[path 0, path 1], "pet"⟩ ∧
      ∃ item, m'.session.tree.itemAt? (path 1) = some item ∧
        item.get? "pet" = some (.list [.record (.ofId (.int 7))]) := by
  intro b q path
  have ht : "pet" ≠ idField := by decide
  obtain ⟨mq, hq, -, hattached⟩ := run_assoc_attached (b := b) (q := q) (m := ⟨.empty, {}⟩) ht rfl
  cases hq
  obtain ⟨hcursor, hleaf⟩ := hattached (by
    intro s hs item hi
    cases List.mem_singleton.1 hs
    revert item
    decide)
  obtain ⟨edges, item, he, hitem, hget⟩ :=
    hleaf [⟨path 0, .ofId (.int 2)⟩] ⟨path 1, .ofId (.int 3)⟩ [] (.int 3) rfl rfl
  cases he
  exact ⟨ht, _, rfl, hcursor, item, hitem, hget "pet"⟩

/-- An identifier that nests an item: it is asked about, and what is answered is lost. -/
theorem run_assoc_lost :
    let b : Backend := .ofFunctions (fun _ => .ok []) fun _ _ => .ok [.ofId (.int 7)]
    let q : Plan := .json (.array [.object [(":id", .array [.object [(":id", .int 5)]])]])
    ∃ mq m', run b q ⟨.empty, {}⟩ = .ok () mq ∧
      run b (.assoc "friend" q) ⟨.empty, {}⟩ = .ok () m' ∧
      m'.world.calls = mq.world.calls ++ [.edges "friend" (.int 5)] ∧
      m'.session.cursor = some ⟨[], "friend"⟩ ∧
      m'.session.tree = mq.session.tree.force :=
  ⟨_, _, rfl, rfl, rfl, rfl, rfl⟩

end Plan

end GraphQuery
