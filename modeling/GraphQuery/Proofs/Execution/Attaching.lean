import GraphQuery.Proofs.Execution.Steps
import GraphQuery.Proofs.Execution.Matching
import GraphQuery.Proofs.Value.Identity
import GraphQuery.Value.Lemmas
/-!
# Attaching edges, leaf by leaf

A successful lookup is an answer for every leaf (`Edges.lookup_eq_ok`), and committing what was
found puts into the place of every leaf the leaf with its answer attached (`Edges.commit_answered`).
Together they are what attaching does (`Run.attach_answered`).
-/

namespace GraphQuery

/-! ## Items put into a buffered tree -/

namespace Tree

variable {t : Tree} {p : Path} {item : Item}

theorem force_map_eq_self {entries : List (Key × Tree)} :
    (map entries).force = map entries ↔ ∀ e ∈ entries, e.2.force = e.2 := by
  rw [force_map, map.injEq, ← List.map_id entries, List.map_map, List.map_inj_left]
  simp [Prod.ext_iff]

theorem force_changeItem (f : Item → Item) (h : t.force = t) :
    (t.changeItem f p).force = t.changeItem f p := by
  induction p, t using path_induction with
  | entry i p entries key t he ih =>
    rw [force_map_eq_self] at h
    rw [changeItem_entry he, force_map_eq_self]
    intro e hm
    rcases List.mem_or_eq_of_mem_set hm with hm | rfl
    · exact h e hm
    · exact ih (h _ (List.mem_of_getElem? he))
  | item j p s => rfl
  | stray p t hp hc => rw [hc, h]

theorem changeItem_const_self (h : t.force = t) (hp : t.itemAt? p = some item) :
    t.changeItem (fun _ => item) p = t := by
  rw [changeItem_congr (f := fun _ => item) (g := id) hp rfl]
  induction p, t using path_induction with
  | entry i p entries key t he ih =>
    rw [itemAt?_entry, he] at hp
    rw [force_map_eq_self] at h
    rw [changeItem_entry he, ih (h _ (List.mem_of_getElem? he)) hp]
    obtain ⟨hlt, hg⟩ := List.getElem?_eq_some_iff.1 he
    rw [← hg, List.set_getElem_self]
  | item j p s =>
    rw [changeItem_item, funext (Item.changeWithin_id p)]
    show seq (.buffered (s.toList.modify j id)) = seq s
    rw [List.modify_id]
    exact h
  | stray p t hp' hc => rw [hc]

end Tree

/-! ## Answers -/

namespace Edges

abbrev Answered := List (Leaf × Option (List Item))

variable {b : Backend} {type : String}

def consult (b : Backend) (type : String) : List Item → World →
    Option (List (Option (List Item)) × World)
  | [], w => some ([], w)
  | item :: rest, w =>
    match item.id? with
    | none => (consult b type rest w).map fun a => (none :: a.1, a.2)
    | some id =>
      match b.askEdges type id w with
      | (.error _, _) => none
      | (.ok edges, w) => (consult b type rest w).map fun a => (some edges :: a.1, a.2)

inductive Turn (b : Backend) (type : String) (item : Item) (w : World) :
    Option (List Item) → World → Prop
  | silent (h : item.id? = none) : Turn b type item w none w
  | asked (id : Value) (edges : List Item) (hid : item.id? = some id)
      (he : b.edges w.calls type id = .ok edges) :
      Turn b type item w (some edges) (Backend.record w (.edges type id))

/-- **Consulting about one more item gives it a turn.** -/
theorem consult_cons {item : Item} {rest : List Item} {w w' : World}
    {answers : List (Option (List Item))}
    (h : consult b type (item :: rest) w = some (answers, w')) : ∃ answer more v,
      answers = answer :: more ∧ Turn b type item w answer v ∧
        consult b type rest v = some (more, w') := by
  rw [consult] at h
  cases hid : item.id? with
  | none =>
    rw [hid] at h
    obtain ⟨⟨more, _⟩, hr, h⟩ := Option.map_eq_some_iff.1 h
    cases h
    exact ⟨none, more, w, rfl, .silent hid, hr⟩
  | some id =>
    simp only [hid, Backend.askEdges] at h
    cases he : b.edges w.calls type id with
    | error e =>
      rw [he] at h
      cases h
    | ok edges =>
      rw [he] at h
      obtain ⟨⟨more, _⟩, hr, h⟩ := Option.map_eq_some_iff.1 h
      cases h
      exact ⟨some edges, more, _, rfl, .asked id edges hid he, hr⟩

theorem length_consult : ∀ {items : List Item} {w w' : World} {answers : List (Option (List Item))},
    consult b type items w = some (answers, w') → answers.length = items.length
  | [], _, _, _, h => by
    cases h
    rfl
  | item :: rest, w, w', answers, h => by
    obtain ⟨answer, more, v, rfl, -, hr⟩ := consult_cons h
    rw [List.length_cons, List.length_cons, length_consult hr]

def foundOf (as : Answered) : List Found := as.filterMap fun a => a.2.map (⟨a.1.path, ·⟩)

theorem lookup_eq_ok : ∀ {leaves : List Leaf} {w w' : World} {found : List Found},
    lookup b type leaves w = ⟨found, none, w'⟩ ↔ ∃ answers,
      consult b type (leaves.map Leaf.item) w = some (answers, w') ∧
        found = foundOf (leaves.zip answers)
  | [], w, w', found => by
    constructor
    · rintro ⟨⟩
      exact ⟨[], rfl, rfl⟩
    · rintro ⟨_, ⟨⟩, rfl⟩
      rfl
  | leaf :: rest, w, w', found => by
    rw [lookup, List.map_cons, consult]
    cases leaf.item.id? with
    | none =>
      simp only [lookup_eq_ok, Option.map_eq_some_iff, Prod.mk.injEq]
      constructor
      · rintro ⟨as, ha, rfl⟩
        exact ⟨none :: as, ⟨(as, w'), ha, rfl, rfl⟩, rfl⟩
      · rintro ⟨_, ⟨⟨as, v⟩, ha, rfl, rfl⟩, rfl⟩
        exact ⟨as, ha, rfl⟩
    | some id =>
      dsimp only
      rcases b.askEdges type id w with ⟨_ | edges, v⟩
      · simp
      · constructor
        · intro h
          cases hl : lookup b type rest v with
          | mk more failure u =>
            simp only [hl, Lookup.mk.injEq] at h
            obtain ⟨rfl, rfl, rfl⟩ := h
            obtain ⟨as, ha, rfl⟩ := lookup_eq_ok.1 hl
            refine ⟨some edges :: as, ?_, rfl⟩
            simp [ha]
        · rintro ⟨answers, h, rfl⟩
          obtain ⟨⟨as, u⟩, ha, h⟩ := Option.map_eq_some_iff.1 h
          cases h
          simp only [lookup_eq_ok.2 ⟨as, ha, rfl⟩]
          rfl

theorem hasId_of_consult : ∀ {leaves : List Leaf} {w w' : World}
    {answers : List (Option (List Item))},
    consult b type (leaves.map Leaf.item) w = some (answers, w') →
      ∀ a ∈ leaves.zip answers, a.2.isSome = true → a.1.item.hasId = true
  | [], _, _, _, _, a, ha, _ => by simp at ha
  | leaf :: rest, w, w', answers, h, a, ha, hs => by
    obtain ⟨answer, more, v, rfl, hturn, hr⟩ := consult_cons h
    rcases List.mem_cons.1 ha with rfl | ha
    · cases hturn with
      | silent => cases hs
      | asked id edges hid he =>
        rw [Record.hasId, hid]
        rfl
    · exact hasId_of_consult hr a ha hs

/-! ## Committing -/

def attached (type : String) (item : Item) (answer : Option (List Item)) : Item :=
  answer.elim item (attachTo type · item)

theorem beq_attached (item : Item) {answer : Option (List Item)}
    (h : answer.isSome = true → item.hasId = true) :
    (item == attached type item answer) = true := by
  cases answer with
  | none => exact Item.beq_self item
  | some edges =>
    obtain ⟨id, hid⟩ := Option.isSome_iff_exists.1 (h rfl)
    refine Item.beq_of_id? hid ?_
    rw [← hid]
    exact Record.id?_set item type _ (h rfl)

def attachments (type : String) (as : Answered) : List (Path × Item) :=
  as.map fun a => (a.1.path, attached type a.1.item a.2)

def answeredPaths (as : Answered) : List Path := as.filterMap fun a => a.2.map fun _ => a.1.path

theorem foundOf_cons_some (leaf : Leaf) (edges : List Item) (as : Answered) :
    foundOf ((leaf, some edges) :: as) = ⟨leaf.path, edges⟩ :: foundOf as := rfl

theorem commit_cons (f : Found) (rest : List Found) (t : Tree) :
    commit type (f :: rest) t =
      let after := commit type rest (t.changeItem (attachTo type f.edges) f.path)
      (if (t.itemAt? f.path).isSome then f.path :: after.1 else after.1, after.2) := rfl

/--
**Committing what was found puts every leaf with its answer into its place**, and the points are the
paths of the leaves that have one.
-/
theorem commit_answered : ∀ (as : Answered) {t : Tree}, t.force = t →
    as.Pairwise (fun a c => a.1.Apart c.1) → (∀ a ∈ as, t.itemAt? a.1.path = some a.1.item) →
      commit type (foundOf as) t = (answeredPaths as, t.putAll (attachments type as))
  | [], _, _, _, _ => rfl
  | (leaf, answer) :: rest, t, hf, hp, ha => by
    obtain ⟨hlt, hrest⟩ := List.pairwise_cons.1 hp
    have hl : t.itemAt? leaf.path = some leaf.item := ha _ List.mem_cons_self
    have hr : ∀ f : Item → Item, ∀ c ∈ rest,
        (t.changeItem f leaf.path).itemAt? c.1.path = some c.1.item := fun f c hc => by
      rw [Tree.itemAt?_changeItem_apart f (hlt c hc)]
      exact ha c (List.mem_cons_of_mem _ hc)
    rw [attachments, List.map_cons, Tree.putAll_cons, ← attachments]
    cases answer with
    | none =>
      -- nothing is committed here, and the leaf put into its own place changes nothing either
      have hs : t.changeItem (fun _ => attached type leaf.item none) leaf.path = t :=
        Tree.changeItem_const_self hf hl
      rw [hs]
      exact commit_answered rest hf hrest fun c hc => ha c (List.mem_cons_of_mem _ hc)
    | some edges =>
      have hs : t.changeItem (fun _ => attached type leaf.item (some edges)) leaf.path =
          t.changeItem (attachTo type edges) leaf.path := Tree.changeItem_congr hl rfl
      have hf' := Tree.force_changeItem (p := leaf.path) (attachTo type edges) hf
      rw [hs, foundOf_cons_some, commit_cons, commit_answered rest hf' hrest (hr _)]
      dsimp only
      rw [hl]
      rfl

theorem pairwise_apart_zip {leaves : List Leaf} (h : leaves.Pairwise Leaf.Apart)
    (answers : List (Option (List Item))) :
    (leaves.zip answers).Pairwise fun a c => a.1.Apart c.1 := by
  rw [List.pairwise_iff_getElem] at h ⊢
  intro i j hi hj hlt
  rw [List.length_zip] at hi hj
  rw [List.getElem_zip, List.getElem_zip]
  exact h i j _ _ hlt

theorem itemAt?_attachments {t : Tree} (h : t.Everywhere Item.isOpen fun _ => true)
    {answers : List (Option (List Item))} {leaf : Leaf} {answer : Option (List Item)}
    (hz : (leaf, answer) ∈ t.leaves.zip answers) :
    (t.force.putAll (attachments type (t.leaves.zip answers))).itemAt? leaf.path =
      some (attached type leaf.item answer) := by
  have hp : (attachments type (t.leaves.zip answers)).Pairwise fun a c => a.1.Apart c.1 :=
    List.pairwise_map.2 (pairwise_apart_zip (Tree.leaves_apart h) answers)
  have hl : t.force.itemAt? leaf.path = some leaf.item := by
    rw [Tree.itemAt?_force]
    exact Tree.itemAt?_leaf h (List.of_mem_zip hz).1
  exact Tree.itemAt?_putAll_of_mem hp (List.mem_map_of_mem hz) hl

end Edges

namespace Run

variable {b : Backend} {type : String} {m m' : Machine}

/-- **Attaching edges attaches to every leaf its answer.** -/
theorem attach_answered (h : m.session.tree.Everywhere Item.isOpen fun _ => true) :
    attach b type m = .ok () m' ↔ ∃ answers w,
      Edges.consult b type (m.session.tree.leaves.map Leaf.item) m.world = some (answers, w) ∧
        m' = ⟨{ m.session with
          tree := m.session.tree.force.putAll
            (Edges.attachments type (m.session.tree.leaves.zip answers))
          cursor := some ⟨Edges.answeredPaths (m.session.tree.leaves.zip answers), type⟩ }, w⟩ := by
  have hc : ∀ answers : List (Option (List Item)),
      Edges.commit type (Edges.foundOf (m.session.tree.leaves.zip answers)) m.session.tree.force =
        (Edges.answeredPaths (m.session.tree.leaves.zip answers), m.session.tree.force.putAll
          (Edges.attachments type (m.session.tree.leaves.zip answers))) := fun answers => by
    refine Edges.commit_answered _ (Tree.force_force _) ?_ fun a ha => ?_
    · exact Edges.pairwise_apart_zip (Tree.leaves_apart h) answers
    · rw [Tree.itemAt?_force]
      exact Tree.itemAt?_leaf h (List.of_mem_zip ha).1
  rw [attach_eq_ok]
  constructor
  · rintro ⟨found, w, hl, rfl⟩
    obtain ⟨answers, ha, rfl⟩ := Edges.lookup_eq_ok.1 hl
    rw [hc answers]
    exact ⟨answers, w, ha, rfl⟩
  · rintro ⟨answers, w, ha, rfl⟩
    refine ⟨_, w, Edges.lookup_eq_ok.2 ⟨answers, ha, rfl⟩, ?_⟩
    rw [hc answers]

end Run

end GraphQuery
