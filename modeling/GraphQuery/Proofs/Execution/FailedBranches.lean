import Mathlib.Data.List.Basic
import GraphQuery.Proofs.Execution.CursorPoints
/-!
# What a failed branch leaves

When the rewriting of branches fails, the branches before the failed one are rewritten, and those
behind it are what they were.  The failed branch itself has been taken out and is not put back: its
sequence is empty, or its field is null (`Plan.run_obj_failed`).  Nothing else changes.
-/

namespace GraphQuery

namespace Rewrite

variable {f : Rewrite} {key : String} {e : QueryError}

inductive Succeeds (f : Rewrite) : List (List Item) → World → List (List Item) → World → Prop
  | nil (w : World) : Succeeds f [] w [] w
  | cons {items out : List Item} {branches outs : List (List Item)} {w v w' : World}
      (h : f items w = (.ok out, v)) (hr : Succeeds f branches v outs w') :
      Succeeds f (items :: branches) w (out :: outs) w'

/--
Branches of which one failed: those before it rewritten, something else in its place, and those
behind it as they were.
-/
def Breaks (f : Rewrite) (lost : List Item) (e : QueryError) (before : List (List Item)) (w : World)
    (after : List (List Item)) (w' : World) : Prop :=
  ∃ done failed rest outs v, before = done ++ failed :: rest ∧ f.Succeeds done w outs v ∧
    f failed v = (.error e, w') ∧ after = outs ++ lost :: rest

theorem Breaks.here {lost failed : List Item} {rest : List (List Item)} {w w' : World}
    (h : f failed w = (.error e, w')) : f.Breaks lost e (failed :: rest) w (lost :: rest) w' :=
  ⟨[], failed, rest, [], w, rfl, .nil w, h, rfl⟩

theorem Breaks.later {lost items out : List Item} {before after : List (List Item)} {w v w' : World}
    (h : f items w = (.ok out, v)) (hr : f.Breaks lost e before v after w') :
    f.Breaks lost e (items :: before) w (out :: after) w' := by
  obtain ⟨done, failed, rest, outs, u, rfl, hs, hf, rfl⟩ := hr
  exact ⟨items :: done, failed, rest, out :: outs, u, rfl, .cons h hs, hf, rfl⟩

/-! ## Sequences -/

theorem traverseAll_failed : ∀ (ss : List (Seq Item)) (w : World),
    Tree.traverseAll f.onSeq ss ⟨w, some e⟩ = (ss, ⟨w, some e⟩)
  | [], _ => rfl
  | s :: rest, w => by
    rw [Tree.traverseAll, onSeq, traverseAll_failed rest]

/-- **Sequences are rewritten up to the first one that fails, which is emptied.** -/
theorem traverseAll_breaks : ∀ {ss ss' : List (Seq Item)} {w w' : World},
    Tree.traverseAll f.onSeq ss ⟨w, none⟩ = (ss', ⟨w', some e⟩) →
      f.Breaks [] e (ss.map Seq.toList) w (ss'.map Seq.toList) w'
  | [], _, _, _, h => by cases h
  | s :: rest, ss', w, w', h => by
    rw [Tree.traverseAll, onSeq] at h
    dsimp only at h
    rcases hs : f s.toList w with ⟨_ | items, v⟩
    · simp only [hs, traverseAll_failed] at h
      cases h
      exact .here hs
    · simp only [hs] at h
      rcases hr : Tree.traverseAll f.onSeq rest ⟨v, none⟩ with ⟨rest', a⟩
      rw [hr] at h
      cases h
      exact .later hs (traverseAll_breaks hr)

/-! ## Points -/

/-- The branch at a point: the items in a field that may be overwritten. -/
def branchAt? (key : String) (t : Tree) (p : Path) : Option (List Item) :=
  ((t.itemAt? p).bind (·.writable? key)).map itemsOf

theorem branchAt?_eq_some {t : Tree} {p : Path} {items : List Item}
    (h : branchAt? key t p = some items) : ∃ item v,
      t.itemAt? p = some item ∧ item.writable? key = some v ∧ itemsOf v = items := by
  obtain ⟨v, hv, rfl⟩ := Option.map_eq_some_iff.1 h
  obtain ⟨item, hp, hv⟩ := Option.bind_eq_some_iff.1 hv
  exact ⟨item, v, hp, hv, rfl⟩

theorem branchAt?_changeItem {t : Tree} {p : Path} {item : Item} {v : Value}
    (hp : t.itemAt? p = some item) (hv : item.writable? key = some v) (v' : Value) :
    branchAt? key (t.changeItem (fun _ => (item.assign? key v').getD item) p) p =
      some (itemsOf v') := by
  obtain ⟨item', ha⟩ := Record.exists_assign? hv v'
  rw [branchAt?, Tree.itemAt?_changeItem, hp, ha, Option.map_some, Option.bind_some,
    Option.getD_some, Record.writable?_of_assign? ha, if_pos rfl, Option.map_some]

theorem itemsOf_list (items : List Item) : itemsOf (.list (items.map .record)) = items := by
  rw [itemsOf, List.map_map]
  exact List.map_id items

theorem onPoints_cons_none {t : Tree} {p : Path} (h : branchAt? key t p = none)
    (rest : List Path) (w : World) :
    f.onPoints key (p :: rest) t ⟨w, none⟩ = f.onPoints key rest (t.enter p) ⟨w, none⟩ := by
  rw [onPoints]
  dsimp only
  cases hp : t.itemAt? p with
  | none => rfl
  | some item =>
    have hv : item.writable? key = none := by
      rw [branchAt?, hp] at h
      exact Option.map_eq_none_iff.1 h
    simp only [onField, hv]
    rw [Tree.enter, Tree.changeItem_congr (f := fun _ => item) (g := id) hp rfl]

theorem onPoints_cons_some {t : Tree} {p : Path} {item : Item} {v : Value}
    (hp : t.itemAt? p = some item) (hv : item.writable? key = some v) (rest : List Path)
    (w : World) : f.onPoints key (p :: rest) t ⟨w, none⟩ =
      let write := fun v' => t.changeItem (fun _ => (item.assign? key v').getD item) p
      match f (itemsOf v) w with
      | (.ok items, w') => f.onPoints key rest (write (.list (items.map .record))) ⟨w', none⟩
      | (.error e, w') => (write .null, ⟨w', some e⟩) := by
  rw [onPoints]
  simp only [hp, onField, hv]
  rcases f (itemsOf v) w with ⟨_ | items, w'⟩
  · cases rest <;> rfl
  · rfl

theorem itemAt?_onPoints_apart {q : Path} : ∀ {points : List Path} {t : Tree} {a : Attempt},
    (∀ p ∈ points, p.Apart q) → (f.onPoints key points t a).1.itemAt? q = t.itemAt? q
  | [], _, _, _ => rfl
  | p :: rest, t, a, h => by
    obtain ⟨hp, hrest⟩ := List.forall_mem_cons.1 h
    rw [onPoints]
    split
    · rfl
    · split
      · rw [itemAt?_onPoints_apart hrest, Tree.itemAt?_enter]
      · rw [itemAt?_onPoints_apart hrest, Tree.itemAt?_changeItem_apart _ hp]

theorem get?_onField {item : Item} {a : Attempt} {name : String} (h : name ≠ key) :
    (f.onField key item a).1.get? name = item.get? name := by
  have hwrite : ∀ v, ((item.assign? key v).getD item).get? name = item.get? name := fun v => by
    cases ha : item.assign? key v with
    | none => rfl
    | some item' => exact (Record.get?_of_assign? ha name).trans (if_neg h)
  unfold onField
  split
  · rfl
  · split <;> exact hwrite _

theorem get?_onPoints {name : String} (h : name ≠ key) {q : Path} {points : List Path} {t : Tree}
    {a : Attempt} (hq : ∀ p ∈ points, p = q ∨ p.Apart q) :
    ((f.onPoints key points t a).1.itemAt? q).map (·.get? name) =
      (t.itemAt? q).map (·.get? name) :=
  onPoints_keeps (motive := fun i => i.map (·.get? name) = (t.itemAt? q).map (·.get? name))
    (fun _ _ hi => (congrArg some (get?_onField h)).trans hi) hq rfl

/-- **Branches at points are rewritten up to the first one that fails, which becomes null.** -/
theorem onPoints_breaks : ∀ {points : List Path} {t t' : Tree} {w w' : World},
    points.Pairwise Path.Apart → f.onPoints key points t ⟨w, none⟩ = (t', ⟨w', some e⟩) →
      f.Breaks [Item.ofValue .null] e (points.filterMap (branchAt? key t)) w
        (points.filterMap (branchAt? key t')) w'
  | [], _, _, _, _, _, h => by cases h
  | p :: rest, t, t', w, w', hp, h => by
    obtain ⟨hp, hrest⟩ := List.pairwise_cons.1 hp
    -- what is written at this point is seen at this point only
    have hsame : ∀ {u : Tree}, (∀ q, p.Apart q → u.itemAt? q = t.itemAt? q) →
        rest.filterMap (branchAt? key u) = rest.filterMap (branchAt? key t) := fun hu =>
      List.filterMap_congr fun q hq => by rw [branchAt?, branchAt?, hu q (hp q hq)]
    have hlast : ∀ {u : Tree} {v : World}, f.onPoints key rest u ⟨v, none⟩ = (t', ⟨w', some e⟩) →
        branchAt? key t' p = branchAt? key u p := fun {u v} hr => by
      have hi : (f.onPoints key rest u ⟨v, none⟩).1.itemAt? p = u.itemAt? p :=
        itemAt?_onPoints_apart fun q hq => (hp q hq).symm
      rw [hr] at hi
      rw [branchAt?, branchAt?, hi]
    cases hb : branchAt? key t p with
    | none =>
      rw [onPoints_cons_none hb] at h
      have hnone : branchAt? key t' p = none := by
        rw [hlast h, branchAt?, Tree.itemAt?_enter]
        exact hb
      rw [List.filterMap_cons_none hb, List.filterMap_cons_none hnone,
        ← hsame fun q _ => Tree.itemAt?_enter p q t]
      exact onPoints_breaks hrest h
    | some items =>
      obtain ⟨item, v, hi, hv, rfl⟩ := branchAt?_eq_some hb
      rw [onPoints_cons_some hi hv] at h
      have hwrite := fun v' q (hq : p.Apart q) =>
        Tree.itemAt?_changeItem_apart (fun _ => (item.assign? key v').getD item) hq t
      rw [List.filterMap_cons_some hb]
      rcases hf : f (itemsOf v) w with ⟨_ | out, u⟩
      · simp only [hf] at h
        cases h
        rw [List.filterMap_cons_some (branchAt?_changeItem hi hv .null), hsame (hwrite .null)]
        exact .here hf
      · simp only [hf] at h
        have hout := (hlast h).trans (branchAt?_changeItem hi hv _)
        rw [itemsOf_list] at hout
        rw [List.filterMap_cons_some hout, ← hsame (hwrite _)]
        exact .later hf (onPoints_breaks hrest h)

end Rewrite

namespace Session

/-- The branches of a session: its sequences, or the lists at the points of its cursor. -/
def branches (s : Session) : List (List Item) :=
  match s.cursor with
  | none => s.tree.seqs.map Seq.toList
  | some c => c.points.filterMap (Rewrite.branchAt? c.key s.tree)

/-- What stands where a branch was lost: nothing in a sequence, and null in a field. -/
def lost (s : Session) : List Item :=
  match s.cursor with
  | none => []
  | some _ => [Item.ofValue .null]

end Session

namespace Run

variable {f : Rewrite} {m m' : Machine} {e : QueryError}

/-- **When a branch fails, those before it are rewritten and those behind it are as they were.** -/
theorem breaks_of_rewriteBranches (h : rewriteBranches f m = .error e m')
    (ha : PointsApart m.session.cursor) :
    f.Breaks m.session.lost e m.session.branches m.world m'.session.branches m'.world := by
  obtain ⟨t, w, hb, rfl⟩ := rewriteBranches_eq_error.1 h
  unfold Rewrite.onBranches at hb
  unfold Session.branches Session.lost
  cases hc : m.session.cursor with
  | none =>
    rw [hc] at hb
    have hb : m.session.tree.traverse f.onSeq { world := m.world } = (t, ⟨w, some e⟩) := hb
    refine Rewrite.traverseAll_breaks ?_
    rw [Tree.traverse_seqs, hb]
  | some c =>
    rw [hc] at ha hb
    exact Rewrite.onPoints_breaks ha hb

theorem rewriteBranches_frame (h : rewriteBranches f m = .error e m')
    (ha : PointsApart m.session.cursor) :
    m'.session = { m.session with tree := m'.session.tree } ∧
      m'.session.tree.skeleton = m.session.tree.skeleton ∧
      ∀ c, m.session.cursor = some c →
        (∀ q, (∀ p ∈ c.points, p.Apart q) → m'.session.tree.itemAt? q = m.session.tree.itemAt? q) ∧
        ∀ p ∈ c.points, ∀ name, name ≠ c.key →
          (m'.session.tree.itemAt? p).map (·.get? name) =
            (m.session.tree.itemAt? p).map (·.get? name) := by
  obtain ⟨t, w, hb, rfl⟩ := rewriteBranches_eq_error.1 h
  have hs := Rewrite.skeleton_onBranches f m.session { world := m.world }
  rw [hb] at hs
  refine ⟨rfl, hs, fun c hc => ?_⟩
  unfold Rewrite.onBranches at hb
  rw [hc] at ha hb
  dsimp only at hb
  obtain rfl : (f.onPoints c.key c.points m.session.tree { world := m.world }).1 = t := by rw [hb]
  exact ⟨fun q hq => Rewrite.itemAt?_onPoints_apart hq, fun p hp name hn =>
    Rewrite.get?_onPoints hn (Path.eq_or_apart_of_mem ha hp)⟩

end Run

namespace Plan

variable {b : Backend} {q : Plan} {m mq m' : Machine} {e : QueryError}

theorem run_obj_error (hq : run b q m = .ok () mq) (h : run b (.obj q) m = .error e m') :
    Run.rewriteBranches (Objects.branch b) mq = .error e m' := by
  have h' : (do run b q; Run.rewriteBranches (Objects.branch b)) m = .error e m' := h
  rwa [Run.bind_apply, hq] at h'

/--
**When resolving a branch fails, the branches before it are resolved, those behind it hold what they
held, and the branch itself is lost**; nothing else in the session changes.
-/
theorem run_obj_failed (hq : run b q m = .ok () mq) (h : run b (.obj q) m = .error e m')
    (ha : PointsApart mq.session.cursor) :
    (Objects.branch b).Breaks mq.session.lost e mq.session.branches mq.world
        m'.session.branches m'.world ∧
      m'.session = { mq.session with tree := m'.session.tree } ∧
      m'.session.tree.skeleton = mq.session.tree.skeleton ∧
      ∀ c, mq.session.cursor = some c →
        (∀ q, (∀ p ∈ c.points, p.Apart q) →
          m'.session.tree.itemAt? q = mq.session.tree.itemAt? q) ∧
        ∀ p ∈ c.points, ∀ name, name ≠ c.key →
          (m'.session.tree.itemAt? p).map (·.get? name) =
            (mq.session.tree.itemAt? p).map (·.get? name) :=
  have hr := run_obj_error hq h
  ⟨Run.breaks_of_rewriteBranches hr ha, Run.rewriteBranches_frame hr ha⟩

/-- The friends of the second item cannot be resolved: they are gone, and those of the first stay. -/
theorem run_obj_failed_friends :
    let resolved : Value → Item := fun id => ⟨[(idField, id), ("name", .string "n")]⟩
    let b : Backend := .failing [⟨Backend.objectsFault, .int 20⟩]
      (.ofFunctions (fun ids => .ok (ids.map resolved)) fun _ id =>
        .ok [.ofId (if id == .int 1 then .int 10 else .int 20)])
    let q : Plan := .assoc "friend" (.literal [.int 1, .int 2])
    ∃ mq e m', run b q ⟨.empty, {}⟩ = .ok () mq ∧ run b (.obj q) ⟨.empty, {}⟩ = .error e m' ∧
      PointsApart mq.session.cursor ∧
      mq.session.branches = [[.ofId (.int 10)], [.ofId (.int 20)]] ∧
      m'.session.branches = [[resolved (.int 10)], [.ofId .null]] ∧
      (Objects.branch b).Breaks mq.session.lost e mq.session.branches mq.world
        m'.session.branches m'.world := by
  intro resolved b q
  have ha : PointsApart (some ⟨[[.entry 0, .item 0], [.entry 0, .item 1]], "friend"⟩) := by
    show List.Pairwise Path.Apart [[.entry 0, .item 0], [.entry 0, .item 1]]
    decide
  exact ⟨_, _, _, rfl, rfl, ha, rfl, rfl,
    (run_obj_failed (b := b) (q := q) (m := ⟨.empty, {}⟩) rfl rfl ha).1⟩

/-- The lookup of the second of three branches fails: what it held is gone. -/
theorem run_obj_lost :
    let b : Backend := .failing [⟨Backend.objectsFault, .int 2⟩]
      (.ofFunctions (fun ids => .ok (ids.map .ofId)) fun _ _ => .ok [])
    let q : Plan := .combine .merge [.nest "a" (.literal [.int 1]), .nest "b" (.literal [.int 2]),
      .nest "c" (.literal [.int 3])]
    ∃ mq e m', run b q ⟨.empty, {}⟩ = .ok () mq ∧ run b (.obj q) ⟨.empty, {}⟩ = .error e m' ∧
      mq.session.branches = [[.ofId (.int 1)], [.ofId (.int 2)], [.ofId (.int 3)]] ∧
      m'.session.branches = [[.ofId (.int 1)], [], [.ofId (.int 3)]] :=
  ⟨_, _, _, rfl, rfl, rfl, rfl⟩

end Plan

end GraphQuery
