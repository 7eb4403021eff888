import GraphQuery.Proofs.Execution.Grafting
import GraphQuery.Proofs.Execution.Lookups
/-!
# What a failed lookup leaves

When the lookup for a leaf fails, the edges found for the leaves before it are attached to these,
and everything else stays as it was, the cursor too (`Plan.run_assoc_failed`).  The backend was
asked about the leaves up to the failed one, and about nothing behind it.
-/

namespace GraphQuery

/-! ## Items put in the places of leaves -/

theorem Tree.putAll_eq_replaceLeaves {t : Tree} (h : t.Everywhere Item.isAddressable fun _ => true)
    {ps : List (Path × Item)} (hl : ∀ a ∈ ps, ∃ leaf ∈ t.leaves, leaf.path = a.1) :
    t.force.putAll ps =
      t.replaceLeaves (updateEach (ps.map fun a => (a.1, some a.2)) (Replant.ownPlaces t)) := by
  have hself : ∀ leaf ∈ t.leaves, Replant.ownPlaces t leaf.path = some leaf.item := by
    intro leaf hm
    rw [Replant.ownPlaces, if_pos (List.mem_map_of_mem hm), Tree.itemAt?_of_mem_leaves h hm]
  have hput : t.force.putAll ps = t.force.putEach (ps.map fun a => (a.1, some a.2)) := by
    rw [putAll, putEach, List.foldl_map]
    rfl
  rw [hput, ← Tree.replaceLeaves_self hself, Tree.putEach_replaceLeaves h]
  · intro e he
    obtain ⟨a, ha, rfl⟩ := List.mem_map.1 he
    exact hl a ha
  · intro e _ leaf hm _
    rw [hself leaf hm]
    rfl
  · -- nothing is taken out, so the order does not matter
    exact List.pairwise_map.2 (List.pairwise_of_forall fun _ _ he => by cases he)

namespace Edges

variable {b : Backend} {type : String}

/-- What the backend answers about an identifier when it has been asked about some items before. -/
def answerAfter (b : Backend) (type : String) (w : World) (before : List Item) (id : Value) :
    Except BackendError (List Item) :=
  b.edges (w.calls ++ questions type before) type id

/-- Whether an item is another one with edges attached, and nothing else changed. -/
def Carries (type : String) (edges : List Item) (item after : Item) : Prop :=
  after.names = (if item.contains type then item.names else item.names ++ [type]) ∧
    ∀ name, after.get? name =
      if name = type then some (.list (edges.map .record)) else item.get? name

theorem carries_attachTo (ht : type ≠ idField) (edges : List Item) (item : Item) :
    Carries type edges item (attachTo type edges item) :=
  ⟨Record.names_set item type _, Record.get?_set item type _ fun h => ht h.1⟩

/-! ## Answers up to a failure -/

theorem askEdges_ok {id : Value} {edges : List Item} {w : World}
    (h : b.edges w.calls type id = .ok edges) :
    b.askEdges type id w = (.ok edges, Backend.record w (.edges type id)) := by
  rw [Backend.askEdges, h]
  rfl

theorem askEdges_error {id : Value} {e : BackendError} {w : World}
    (h : b.edges w.calls type id = .error e) :
    b.askEdges type id w = (.error (.backend e), Backend.record w (.edges type id)) := by
  rw [Backend.askEdges, h]
  rfl

theorem exists_turn {item : Item} {w : World}
    (h : ∀ id, item.id? = some id → ∃ edges, answerAfter b type w [] id = .ok edges) :
    ∃ answer v, Turn b type item w answer v := by
  cases hid : item.id? with
  | none => exact ⟨none, w, .silent hid⟩
  | some id =>
    obtain ⟨edges, he⟩ := h id hid
    rw [answerAfter, questions, List.filterMap_nil, List.append_nil] at he
    exact ⟨some edges, _, .asked id edges hid he⟩

theorem Turn.answerAfter {item : Item} {answer : Option (List Item)} {w v : World}
    (h : Turn b type item w answer v) (before : List Item) (id : Value) :
    answerAfter b type v before id = answerAfter b type w (item :: before) id := by
  rw [Edges.answerAfter, Edges.answerAfter, questions_cons, h.calls, List.append_assoc]

theorem Turn.consult {item : Item} {answer : Option (List Item)} {w v w' : World}
    {rest : List Item} {more : List (Option (List Item))} (h : Turn b type item w answer v)
    (hr : consult b type rest v = some (more, w')) :
    consult b type (item :: rest) w = some (answer :: more, w') := by
  cases h with
  | silent hid => simp [Edges.consult, hid, hr]
  | asked id edges hid he =>
    simp [Edges.consult, hid, askEdges_ok he, hr]

theorem exists_consult : ∀ {leaves : List Leaf} {w : World},
    (∀ before l after id, leaves = before ++ l :: after → l.item.id? = some id →
      ∃ edges, answerAfter b type w (before.map Leaf.item) id = .ok edges) →
    ∃ answers w', consult b type (leaves.map Leaf.item) w = some (answers, w')
  | [], w, _ => ⟨[], w, rfl⟩
  | leaf :: rest, w, h => by
    obtain ⟨answer, v, hturn⟩ := exists_turn fun id hid => h [] leaf rest id rfl hid
    have hrest : ∃ answers w', consult b type (rest.map Leaf.item) v = some (answers, w') :=
      exists_consult fun before l after id he hid => by
        rw [hturn.answerAfter]
        exact h (leaf :: before) l after id (congrArg (leaf :: ·) he) hid
    obtain ⟨answers, w', hc⟩ := hrest
    exact ⟨answer :: answers, w', hturn.consult hc⟩

section

variable {leaves : List Leaf} {l : Leaf} {w w' : World} {answers : List (Option (List Item))}

theorem exists_answer (h : consult b type (leaves.map Leaf.item) w = some (answers, w'))
    (hl : l ∈ leaves) : ∃ answer, (l, answer) ∈ leaves.zip answers := by
  have hlength : answers.length = leaves.length := by rw [length_consult h, List.length_map]
  obtain ⟨k, hk, rfl⟩ := List.mem_iff_getElem.1 hl
  have hz : k < (leaves.zip answers).length := by
    rw [List.length_zip]
    omega
  exact ⟨answers[k], List.mem_iff_getElem.2 ⟨k, hz, List.getElem_zip⟩⟩

theorem answer_of_identified {before after : List Leaf} {id : Value}
    (h : consult b type (leaves.map Leaf.item) w = some (answers, w'))
    (hs : leaves = before ++ l :: after) (hid : l.item.id? = some id) :
    ∃ edges, answerAfter b type w (before.map Leaf.item) id = .ok edges ∧
      (l, some edges) ∈ leaves.zip answers := by
  rw [hs, List.map_append, List.map_cons] at h
  obtain ⟨edges, he, hat⟩ := answer_of_consult hid h
  rw [List.length_map] at hat
  have hl : leaves[before.length]? = some l := by
    rw [hs, List.getElem?_append_right (Nat.le_refl _), Nat.sub_self]
    rfl
  exact ⟨edges, he, List.mem_of_getElem? (List.getElem?_zip_eq_some.2 ⟨hl, hat⟩)⟩

theorem answer_of_silent {answer : Option (List Item)}
    (h : consult b type (leaves.map Leaf.item) w = some (answers, w'))
    (hz : (l, answer) ∈ leaves.zip answers) (hid : l.item.id? = none) : answer = none := by
  cases answer with
  | none => rfl
  | some edges =>
    have hidentified := hasId_of_consult h _ hz rfl
    rw [Record.hasId, hid] at hidentified
    cases hidentified

end

theorem words_of_consult : ∀ {items : List Item} {w w' : World}
    {answers : List (Option (List Item))}, consult b type items w = some (answers, w') →
      w'.words = w.words
  | [], _, _, _, h => by
    cases h
    rfl
  | item :: rest, w, w', answers, h => by
    obtain ⟨answer, more, v, rfl, hturn, hr⟩ := consult_cons h
    rw [words_of_consult hr]
    cases hturn <;> rfl

theorem world_of_consult {items : List Item} {w w' : World} {answers : List (Option (List Item))}
    (h : consult b type items w = some (answers, w')) :
    w' = { w with calls := w.calls ++ questions type items } := by
  have hcalls := calls_of_consult h
  have hwords := words_of_consult h
  cases w'
  cases hcalls
  cases hwords
  rfl

/-- **A lookup stops at the first leaf about which the backend fails.** -/
theorem lookup_failed {leaf : Leaf} {id : Value} {e : BackendError} {post : List Leaf}
    (hid : leaf.item.id? = some id) : ∀ {pre : List Leaf} {w v : World}
    {answers : List (Option (List Item))},
    consult b type (pre.map Leaf.item) w = some (answers, v) →
      b.edges v.calls type id = .error e →
        lookup b type (pre ++ leaf :: post) w =
          ⟨foundOf (pre.zip answers), some (.backend e), Backend.record v (.edges type id)⟩
  | [], w, v, answers, h, he => by
    cases h
    simp [lookup, hid, askEdges_error he, foundOf]
  | first :: pre, w, v, answers, h, he => by
    obtain ⟨answer, more, u, rfl, hturn, hr⟩ := consult_cons h
    have hrest : lookup b type (pre ++ leaf :: post) u = _ := lookup_failed hid hr he
    cases hturn with
    | silent hn =>
      rw [List.cons_append, lookup, hn]
      exact hrest
    | asked id' edges hid' hask =>
      simp only [List.cons_append, lookup, hid', askEdges_ok hask, hrest]
      rfl

/-! ## What stands in the places of the leaves -/

def placesAfter (type : String) (t : Tree) (as : Answered) : Path → Option Item :=
  updateEach ((attachments type as).map fun a => (a.1, some a.2)) (Replant.ownPlaces t)

section

variable {t : Tree} {as : Answered} {leaf : Leaf}

theorem placesAfter_of_mem (hp : as.Pairwise fun a c => a.1.Apart c.1)
    {answer : Option (List Item)} (hm : (leaf, answer) ∈ as) :
    placesAfter type t as leaf.path = some (attached type leaf.item answer) := by
  refine updateEach_of_mem ?_ (List.mem_map.2 ⟨_, List.mem_map_of_mem hm, rfl⟩)
  rw [attachments, List.pairwise_map, List.pairwise_map]
  exact hp.imp fun hapart => Path.Apart.ne hapart

theorem placesAfter_of_apart (h : t.Everywhere Item.isAddressable fun _ => true)
    (hl : leaf ∈ t.leaves) (ha : ∀ a ∈ as, a.1.Apart leaf) :
    placesAfter type t as leaf.path = some leaf.item := by
  have hne : ∀ e ∈ (attachments type as).map (fun a => ((a.1, some a.2) : Edit)),
      e.1 ≠ leaf.path := by
    intro e he hpath
    obtain ⟨_, ha', rfl⟩ := List.mem_map.1 he
    obtain ⟨a, hm, rfl⟩ := List.mem_map.1 ha'
    exact Path.Apart.ne (ha a hm) hpath
  rw [placesAfter, updateEach_of_ne hne, Replant.ownPlaces, if_pos (List.mem_map_of_mem hl),
    Tree.itemAt?_of_mem_leaves h hl]

theorem putAll_attachments (type : String) (h : t.Everywhere Item.isAddressable fun _ => true)
    (hl : ∀ a ∈ as, a.1 ∈ t.leaves) (hp : as.Pairwise fun a c => a.1.Apart c.1) :
    t.force.putAll (attachments type as) = t.replaceLeaves (placesAfter type t as) ∧
      ∀ leaf ∈ t.leaves, (∃ answer, (leaf, answer) ∈ as) ∨ (∀ a ∈ as, a.1.Apart leaf) →
        (t.force.putAll (attachments type as)).itemAt? leaf.path =
          placesAfter type t as leaf.path := by
  refine ⟨Tree.putAll_eq_replaceLeaves h fun a ha => ?_, fun leaf hm hcase => ?_⟩
  · obtain ⟨a', ha', rfl⟩ := List.mem_map.1 ha
    exact ⟨a'.1, hl a' ha', rfl⟩
  have hown : t.force.itemAt? leaf.path = some leaf.item := by
    rw [Tree.itemAt?_force, Tree.itemAt?_of_mem_leaves h hm]
  rcases hcase with ⟨answer, ha⟩ | ha
  · rw [placesAfter_of_mem hp ha]
    exact Tree.itemAt?_putAll_of_mem (List.pairwise_map.2 hp) (List.mem_map_of_mem ha) hown
  · rw [placesAfter_of_apart h hm ha, Tree.itemAt?_putAll_apart, hown]
    intro a ha'
    obtain ⟨a', hm', rfl⟩ := List.mem_map.1 ha'
    exact ha a' hm'

end

end Edges

open Edges

namespace Run

/-- **Attaching stops at the first failed lookup, and attaches what was found before.** -/
theorem attach_failed {b : Backend} {type : String} {m : Machine} {pre post : List Leaf}
    {leaf : Leaf} {id : Value} {e : BackendError} {answers : List (Option (List Item))} {v : World}
    (h : m.session.tree.Everywhere Item.isOpen fun _ => true)
    (hls : m.session.tree.leaves = pre ++ leaf :: post) (hid : leaf.item.id? = some id)
    (hc : consult b type (pre.map Leaf.item) m.world = some (answers, v))
    (he : b.edges v.calls type id = .error e) :
    attach b type m = .error (.backend e)
      ⟨{ m.session with tree := m.session.tree.force.putAll (attachments type (pre.zip answers)) },
        Backend.record v (.edges type id)⟩ := by
  have hmem : ∀ a ∈ pre.zip answers, a.1 ∈ m.session.tree.leaves := fun a ha => by
    rw [hls]
    exact List.mem_append_left _ (List.of_mem_zip ha).1
  have hapart : pre.Pairwise Leaf.Apart := by
    have hall := Tree.leaves_apart h
    rw [hls, List.pairwise_append] at hall
    exact hall.1
  have hcommit : commit type (foundOf (pre.zip answers)) m.session.tree.force = _ :=
    commit_answered (pre.zip answers) (Tree.force_force _) (pairwise_apart_zip hapart answers)
      fun a ha => by
        rw [Tree.itemAt?_force]
        exact Tree.itemAt?_leaf h (hmem a ha)
  unfold attach
  simp only [Tree.leaves_force, hls, lookup_failed hid hc he, hcommit]

end Run

namespace Plan

/--
**When the lookup for a leaf is the first to fail, the leaves before it carry the edges found for
them, and everything else is as it was.**  The error is the backend's, the leaves up to the failed
one have been asked about, in order, and the cursor, the scope and the target stay.
-/
theorem run_assoc_failed {b : Backend} {type : String} (ht : type ≠ idField) {m : Machine}
    (hsound : m.session.tree.Sound) {pre post : List Leaf} {leaf : Leaf} {id : Value}
    {e : BackendError} (hls : m.session.tree.leaves = pre ++ leaf :: post)
    (hid : leaf.item.id? = some id)
    (hfirst : ∀ before l after id, pre = before ++ l :: after → l.item.id? = some id →
      ∃ edges, answerAfter b type m.world (before.map Leaf.item) id = .ok edges)
    (hfail : answerAfter b type m.world (pre.map Leaf.item) id = .error e) :
    ∃ m', run b (.assocHere type) m = .error (.backend e) m' ∧
      (∀ q m₀, run b q m₀ = .ok () m → run b (.assoc type q) m₀ = .error (.backend e) m') ∧
      m'.world = { m.world with
        calls := m.world.calls ++ questions type ((pre ++ [leaf]).map Leaf.item) } ∧
      m'.session = { m.session with tree := m'.session.tree } ∧
      ∃ f : Path → Option Item, m'.session.tree = m.session.tree.replaceLeaves f ∧
        (∀ l ∈ m.session.tree.leaves, m'.session.tree.itemAt? l.path = f l.path) ∧
        (∀ before l after id, pre = before ++ l :: after → l.item.id? = some id →
          ∃ edges item, answerAfter b type m.world (before.map Leaf.item) id = .ok edges ∧
            f l.path = some item ∧ Carries type edges l.item item) ∧
        ∀ l ∈ m.session.tree.leaves, l.item.id? = none ∨ l ∈ leaf :: post →
          f l.path = some l.item := by
  have haddr := hsound.addressable
  obtain ⟨answers, v, hc⟩ := exists_consult hfirst
  have hworld := world_of_consult hc
  have hask : b.edges v.calls type id = .error e := by
    rw [hworld]
    exact hfail
  have hattach := Run.attach_failed haddr.isOpen hls hid hc hask
  have hapart := Tree.leaves_apart haddr.isOpen
  rw [hls, List.pairwise_append] at hapart
  obtain ⟨hpre, -, hbetween⟩ := hapart
  have hzip := pairwise_apart_zip hpre answers
  have hmem : ∀ a ∈ pre.zip answers, a.1 ∈ m.session.tree.leaves := fun a ha => by
    rw [hls]
    exact List.mem_append_left _ (List.of_mem_zip ha).1
  have hlater : ∀ l ∈ leaf :: post, ∀ a ∈ pre.zip answers, a.1.Apart l := fun l hl a ha =>
    hbetween a.1 (List.of_mem_zip ha).1 l hl
  obtain ⟨htree, hat⟩ := putAll_attachments type haddr hmem hzip
  refine ⟨_, hattach, fun q m₀ hq => ?_, ?_, rfl, _, htree, fun l hl => ?_, ?_, ?_⟩
  · show (do run b q; Run.attach b type) m₀ = _
    rw [Run.bind_apply, hq]
    exact hattach
  · simp [Backend.record, hworld, questions, hid]
  · refine hat l hl ?_
    rw [hls] at hl
    rcases List.mem_append.1 hl with hl | hl
    · exact .inl (exists_answer hc hl)
    · exact .inr (hlater l hl)
  · intro before l after id' hsplit hid'
    obtain ⟨edges, hedges, hz⟩ := answer_of_identified hc hsplit hid'
    exact ⟨edges, _, hedges, placesAfter_of_mem hzip hz, carries_attachTo ht edges l.item⟩
  · intro l hl hkept
    rw [hls] at hl
    rcases List.mem_append.1 hl with hl' | hl'
    · -- a leaf before the failed one has an answer, and an empty one if it has no identifier
      obtain ⟨answer, hz⟩ := exists_answer hc hl'
      have hsilent : l.item.id? = none := hkept.resolve_right fun hlate =>
        (hbetween l hl' l hlate).1 (List.prefix_refl _)
      rw [placesAfter_of_mem hzip hz, answer_of_silent hc hz hsilent]
      rfl
    · exact placesAfter_of_apart haddr (hls ▸ hl) (hlater l hl')

/-- The lookup for the second of three items fails: the first has its friend, the others nothing. -/
theorem run_assoc_failed_friends :
    let b : Backend := .failing [⟨"friend", .int 2⟩]
      (.ofFunctions (fun _ => .ok []) fun _ _ => .ok [.ofId (.int 7)])
    let m : Machine := ⟨{ tree := .ofItems [.ofId (.int 1), .ofId (.int 2), .ofId (.int 3)] }, {}⟩
    let leaf : Nat → Int64 → Leaf := fun k n => ⟨[.entry 0, .item k], .ofId (.int n)⟩
    "friend" ≠ idField ∧ m.session.tree.Sound ∧
      m.session.tree.leaves = [leaf 0 1] ++ leaf 1 2 :: [leaf 2 3] ∧
      ∃ m' item, run b (.assocHere "friend") m =
          .error (.backend (Backend.injected "friend")) m' ∧
        m'.world.calls = [.edges "friend" (.int 1), .edges "friend" (.int 2)] ∧
        m'.session.cursor = none ∧ m'.session.tree.itemAt? [.entry 0, .item 0] = some item ∧
        Carries "friend" [.ofId (.int 7)] (.ofId (.int 1)) item ∧
        ∀ l ∈ [leaf 1 2, leaf 2 3], m'.session.tree.itemAt? l.path = some l.item := by
  intro b m leaf
  have ht : "friend" ≠ idField := by decide
  have hsound : m.session.tree.Sound := by
    intro s hs item hi
    cases List.mem_singleton.1 hs
    revert item
    decide
  have hls : m.session.tree.leaves = [leaf 0 1] ++ leaf 1 2 :: [leaf 2 3] := rfl
  have hfirst : ∀ before l after id, [leaf 0 1] = before ++ l :: after → l.item.id? = some id →
      ∃ edges, answerAfter b "friend" m.world (before.map Leaf.item) id = .ok edges := by
    intro before l after id hsplit hid
    cases before with
    | nil =>
      cases hsplit
      cases hid
      exact ⟨_, rfl⟩
    | cons first before => simp at hsplit
  have hid : (leaf 1 2).item.id? = some (.int 2) := rfl
  have hfail : answerAfter b "friend" m.world ([leaf 0 1].map Leaf.item) (.int 2) =
      .error (Backend.injected "friend") := rfl
  obtain ⟨m', hrun, -, hworld, hsession, f, -, hat, hcarries, hkept⟩ :=
    run_assoc_failed (b := b) ht hsound hls hid hfirst hfail
  obtain ⟨edges, item, he, hf, hitem⟩ := hcarries [] (leaf 0 1) [] (.int 1) rfl rfl
  cases he
  refine ⟨ht, hsound, hls, m', item, hrun, ?_, ?_, ?_, hitem, ?_⟩
  · rw [hworld]
    rfl
  · rw [hsession]
  · rw [← hf]
    exact hat (leaf 0 1) (by rw [hls]; exact List.mem_cons_self)
  · intro l hl
    have hmem : l ∈ m.session.tree.leaves := by
      rw [hls]
      exact List.mem_append_right _ hl
    rw [hat l hmem, hkept l hmem (.inr hl)]

end Plan

end GraphQuery
