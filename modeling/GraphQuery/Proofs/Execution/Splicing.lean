import GraphQuery.Proofs.Execution.FailedBranches
import GraphQuery.Proofs.Tree.Footprint
/-!
# Transforms in their places

A transform rewrites the lists at the points of a cursor, one point after another in the same tree.
Where no point begins with another one, each of the lists is still what it was when its turn comes,
and nothing else in the tree is touched (`Run.Spliced`): fields beside the lists, items that are no
point, and sequences stay, and so do the shape of the tree and the cursor.  Without a cursor every
sequence is rewritten as a whole (`Run.transform_splices`).

Random words are used up on the way, so what a transform makes of a list depends on the lists before
it, as far as they draw words (`Transform.wordsAfter`).
-/

namespace GraphQuery

namespace Transform

def onList (T : Transform) (items : List Item) (w : Words) : List Item :=
  (T.run (.ofList items) w).1.toList

/-- The words that are left when a transform was done on some flows. -/
def wordsAfter (T : Transform) (inputs : List (Flow Item)) (w : Words) : Words :=
  inputs.foldl (fun w f => (T.run f w).2) w

def spliced (T : Transform) (key : String) (w : Words) (item : Item) : Item :=
  match item.writable? key with
  | none => item
  | some v => (item.assign? key (.list ((T.onList (Rewrite.itemsOf v) w).map .record))).getD item

variable {T : Transform} {key : String} {w : Words}

theorem wordsAfter_append (inputs inputs' : List (Flow Item)) :
    T.wordsAfter (inputs ++ inputs') w = T.wordsAfter inputs' (T.wordsAfter inputs w) :=
  List.foldl_append

theorem spliced_records (hk : key ≠ idField) {pre post : List (String × Value)}
    (hpre : key ∉ pre.map Prod.fst) (items : List Item) (w : Words) :
    T.spliced key w ⟨pre ++ (key, .list (items.map .record)) :: post⟩ =
      ⟨pre ++ (key, .list ((T.onList items w).map .record)) :: post⟩ := by
  have hg : Record.get? (⟨pre ++ (key, .list (items.map .record)) :: post⟩ : Item) key =
      some (.list (items.map .record)) := by
    have hnone : Record.lookup key pre = none := by
      rw [← Option.not_isSome_iff_eq_none, Record.lookup_isSome_iff]
      exact hpre
    rw [Record.get?, Record.lookup_append, hnone, Option.none_or]
    exact if_pos rfl
  rw [spliced, Record.writable?_eq_some.2 ⟨hk, hg⟩]
  simp only [Rewrite.itemsOf_list, Record.assign?, if_neg hk, Record.replace?_middle hpre]
  rfl

theorem spliced_missing {item : Item} (h : item.contains key = false) :
    T.spliced key w item = item := by
  have hg : item.get? key = none := by
    rwa [Record.contains, Option.isSome_eq_false_iff, Option.isNone_iff_eq_none] at h
  have hw : item.writable? key = none := by
    rw [Record.writable?, hg, ite_self]
  rw [spliced, hw]

end Transform

/-! ## One point after another -/

namespace Run

def inputsAt (key : String) (t : Tree) (points : List Path) : List (Flow Item) :=
  (points.filterMap (Rewrite.branchAt? key t)).map .ofList

variable {T : Transform} {key : String} {t : Tree} {p q : Path} {points rest : List Path}

theorem inputsAt_cons : inputsAt key t (p :: rest) =
    inputsAt key t [p] ++ inputsAt key t rest := by
  rw [inputsAt, ← List.singleton_append, List.filterMap_append, List.map_append]
  rfl

def worldAfter (T : Transform) (key : String) (t : Tree) (points : List Path) (w : World) :
    World :=
  { w with words := T.wordsAfter (inputsAt key t points) w.words }

theorem worldAfter_cons (w : World) :
    worldAfter T key t (p :: rest) w = worldAfter T key t rest (worldAfter T key t [p] w) := by
  rw [worldAfter, inputsAt_cons, Transform.wordsAfter_append]
  rfl

theorem worldAfter_changeItem (f : Item → Item) (h : ∀ q ∈ points, p.Apart q) (w : World) :
    worldAfter T key (t.changeItem f p) points w = worldAfter T key t points w := by
  have hb : points.filterMap (Rewrite.branchAt? key (t.changeItem f p)) =
      points.filterMap (Rewrite.branchAt? key t) := List.filterMap_congr fun q hq => by
    rw [Rewrite.branchAt?, Rewrite.branchAt?, Tree.itemAt?_changeItem_apart f (h q hq)]
  rw [worldAfter, inputsAt, hb]
  rfl

/-- **The turn of a point**: the item there is changed, if there is one, and the rest is done. -/
theorem onPoints_turn (T : Transform) (key : String) (p : Path) (rest : List Path) (t : Tree)
    (w : World) : ∃ g : Item → Item,
      (∀ item, t.itemAt? p = some item → g item = T.spliced key w.words item) ∧
      (transformItems T).onPoints key (p :: rest) t ⟨w, none⟩ =
        (transformItems T).onPoints key rest (t.changeItem g p)
          ⟨worldAfter T key t [p] w, none⟩ := by
  cases hb : Rewrite.branchAt? key t p with
  | none =>
    -- a point without such a field is entered, which changes no item and draws no word
    have hw : worldAfter T key t [p] w = w := by
      rw [worldAfter, inputsAt, List.filterMap_cons_none hb]
      rfl
    refine ⟨id, fun item hi => ?_, ?_⟩
    · have hv : item.writable? key = none := by
        rw [Rewrite.branchAt?, hi] at hb
        exact Option.map_eq_none_iff.1 hb
      rw [Transform.spliced, hv]
      rfl
    · rw [Rewrite.onPoints_cons_none hb, hw]
      rfl
  | some items =>
    obtain ⟨item, v, hi, hv, rfl⟩ := Rewrite.branchAt?_eq_some hb
    have hw : worldAfter T key t [p] w =
        { w with words := (T.run (.ofList (Rewrite.itemsOf v)) w.words).2 } := by
      rw [worldAfter, inputsAt, List.filterMap_cons_some hb]
      rfl
    refine ⟨fun _ => T.spliced key w.words item, fun item' hi' => ?_, ?_⟩
    · rw [hi] at hi'
      cases hi'
      rfl
    · rw [Rewrite.onPoints_cons_some hi hv, hw, Transform.spliced, hv]
      rfl

/-- **A transform at points succeeds**, and uses up words on the lists that were there before. -/
theorem onPoints_transform : ∀ {points : List Path} {t : Tree} {w : World},
    points.Pairwise Path.Apart →
      ((transformItems T).onPoints key points t ⟨w, none⟩).2 = ⟨worldAfter T key t points w, none⟩
  | [], _, _, _ => rfl
  | p :: rest, t, w, h => by
    obtain ⟨hp, hrest⟩ := List.pairwise_cons.1 h
    obtain ⟨g, -, hturn⟩ := onPoints_turn T key p rest t w
    rw [hturn, onPoints_transform hrest, worldAfter_changeItem g hp, ← worldAfter_cons]

/-- **At a point the item that was there is rewritten**, with the words that are left then. -/
theorem itemAt?_onPoints_point : ∀ {ps : List Path} {t : Tree} {w : World},
    (ps ++ p :: rest).Pairwise Path.Apart →
      ((transformItems T).onPoints key (ps ++ p :: rest) t ⟨w, none⟩).1.itemAt? p =
        (t.itemAt? p).map (T.spliced key (worldAfter T key t ps w).words)
  | [], t, w, h => by
    obtain ⟨hp, -⟩ := List.pairwise_cons.1 h
    obtain ⟨g, hg, hturn⟩ := onPoints_turn T key p rest t w
    rw [List.nil_append, hturn, Rewrite.itemAt?_onPoints_apart fun q hq => (hp q hq).symm,
      Tree.itemAt?_changeItem]
    exact Option.map_congr hg
  | p' :: ps, t, w, h => by
    obtain ⟨hp, hrest⟩ := List.pairwise_cons.1 h
    have hps : ∀ q ∈ ps, p'.Apart q := fun q hq => hp q (List.mem_append_left _ hq)
    have hpp : p'.Apart p := hp p (List.mem_append_right _ List.mem_cons_self)
    obtain ⟨g, -, hturn⟩ := onPoints_turn T key p' (ps ++ p :: rest) t w
    rw [List.cons_append, hturn, itemAt?_onPoints_point hrest,
      Tree.itemAt?_changeItem_apart g hpp, worldAfter_changeItem g hps, ← worldAfter_cons]

/-- **Items that are neither at a point nor below one keep what no point passes.** -/
theorem keptBut_onPoints : ∀ {points : List Path} {t : Tree} {w : World} {item : Item},
    (∀ p ∈ points, ¬ p <+: q) → t.itemAt? q = some item →
      ∃ item', ((transformItems T).onPoints key points t ⟨w, none⟩).1.itemAt? q = some item' ∧
        item.KeptBut (fun r => ∃ p ∈ points, q ++ r <+: p) item'
  | [], _, _, item, _, h => ⟨item, h, .refl _ item⟩
  | p :: rest, t, w, item, hq, h => by
    obtain ⟨hp, hrest⟩ := List.forall_mem_cons.1 hq
    obtain ⟨g, -, hturn⟩ := onPoints_turn T key p rest t w
    -- what this point leaves of the item is where the points behind it start
    obtain ⟨mid, hmid, hfirst⟩ := Tree.keptBut_changeItem g hp h
    obtain ⟨item', hi, hthen⟩ := keptBut_onPoints hrest hmid
    refine ⟨item', by rw [hturn]; exact hi, (hfirst.mono fun r hr => ?_).trans
      (hthen.mono fun r ⟨p', hp', hr⟩ => ⟨p', List.mem_cons_of_mem p hp', hr⟩)⟩
    exact ⟨p, List.mem_cons_self, hr⟩

/-- **Sequences keep their lengths**, and stay as they are where no point enters them. -/
theorem seqAt?_onPoints : ∀ {points : List Path} {t : Tree} {w : World} {s : Seq Item},
    t.seqAt? q = some s →
      ∃ s', ((transformItems T).onPoints key points t ⟨w, none⟩).1.seqAt? q = some s' ∧
        s'.toList.length = s.toList.length ∧ ((∀ p ∈ points, ¬ q <+: p) → s' = s)
  | [], _, _, s, h => ⟨s, h, rfl, fun _ => rfl⟩
  | p :: rest, t, w, s, h => by
    obtain ⟨g, -, hturn⟩ := onPoints_turn T key p rest t w
    obtain ⟨mid, hmid, hlen, hsame⟩ := Tree.seqAt?_changeItem (p := p) g h
    obtain ⟨s', hs', hlen', hsame'⟩ := seqAt?_onPoints hmid
    refine ⟨s', by rw [hturn]; exact hs', hlen'.trans hlen, fun hq => ?_⟩
    obtain ⟨hp, hrest⟩ := List.forall_mem_cons.1 hq
    exact (hsame' hrest).trans (hsame hp)

/-! ## The sequences of a tree -/

theorem traverseAll_transform : ∀ (ss : List (Seq Item)) (w : Words),
    (Tree.traverseAll (transformSeq T) ss w).1.length = ss.length ∧
      (Tree.traverseAll (transformSeq T) ss w).2 = T.wordsAfter (ss.map Seq.flow) w
  | [], _ => ⟨rfl, rfl⟩
  | s :: rest, w => by
    obtain ⟨hlen, hwords⟩ := traverseAll_transform rest (T.run s.flow w).2
    exact ⟨congrArg (· + 1) hlen, hwords⟩

theorem seqs_traverse_transform (T : Transform) (t : Tree) (w : Words) :
    (t.traverse (transformSeq T) w).1.seqs = (Tree.traverseAll (transformSeq T) t.seqs w).1 :=
  (congrArg Prod.fst (Tree.traverse_seqs (transformSeq T) t w)).symm

/-- **Without a cursor every sequence is rewritten**, with the words that those before it left. -/
theorem getElem?_traverse {done rest : List (Seq Item)} {s : Seq Item}
    (h : t.seqs = done ++ s :: rest) (w : Words) :
    (t.traverse (transformSeq T) w).1.seqs[done.length]? =
      some (.lazy (T.run s.flow (T.wordsAfter (done.map Seq.flow) w)).1) := by
  obtain ⟨hlen, hwords⟩ := traverseAll_transform (T := T) done w
  rw [seqs_traverse_transform, h, Tree.traverseAll_append, ← hlen, List.getElem?_append_right (Nat.le_refl _),
    Nat.sub_self, hwords]
  rfl

/-! ## Splicing -/

/--
What a transform at the points of a cursor makes of a tree.  Where a point has a list of records,
that list is rewritten in its place, and the fields before and behind it are as they were.
-/
structure Spliced (T : Transform) (c : Cursor) (w : Words) (before after : Tree) : Prop where
  rewritten : ∀ ps p rest, c.points = ps ++ p :: rest → ∀ pre items post,
    c.key ∉ pre.map Prod.fst →
    before.itemAt? p = some ⟨pre ++ (c.key, .list (items.map .record)) :: post⟩ →
    after.itemAt? p = some ⟨pre ++ (c.key, .list ((T.onList items
      (T.wordsAfter (inputsAt c.key before ps) w)).map .record)) :: post⟩
  /-- a point whose item has no such field -/
  missing : ∀ p ∈ c.points, ∀ item, before.itemAt? p = some item → item.contains c.key = false →
    after.itemAt? p = some item
  others : ∀ p ∈ c.points, ∀ name, name ≠ c.key →
    (after.itemAt? p).map (·.get? name) = (before.itemAt? p).map (·.get? name)
  apart : ∀ q, (∀ p ∈ c.points, p.Apart q) → after.itemAt? q = before.itemAt? q
  /-- items that points pass through on their way -/
  above : ∀ q item, before.itemAt? q = some item → (∀ p ∈ c.points, ¬ p <+: q) → ∃ item',
    after.itemAt? q = some item' ∧ item.KeptBut (fun r => ∃ p ∈ c.points, q ++ r <+: p) item'
  sequences : ∀ q s, before.seqAt? q = some s → ∃ s', after.seqAt? q = some s' ∧
    s'.toList.length = s.toList.length ∧ ((∀ p ∈ c.points, ¬ q <+: p) → s' = s)

theorem spliced_onPoints {c : Cursor} (hk : c.key ≠ idField) (ha : c.points.Pairwise Path.Apart)
    (t : Tree) (w : World) :
    Spliced T c w.words t ((transformItems T).onPoints c.key c.points t ⟨w, none⟩).1 where
  rewritten := by
    intro ps p rest hc pre items post hpre hp
    rw [hc] at ha ⊢
    rw [itemAt?_onPoints_point ha, hp, Option.map_some, Transform.spliced_records hk hpre]
    rfl
  missing := by
    intro p hp item hi hm
    obtain ⟨ps, rest, hc⟩ := List.append_of_mem hp
    rw [hc] at ha ⊢
    rw [itemAt?_onPoints_point ha, hi, Option.map_some, Transform.spliced_missing hm]
  others p hp name hn := Rewrite.get?_onPoints hn (Path.eq_or_apart_of_mem ha hp)
  apart q hq := Rewrite.itemAt?_onPoints_apart hq
  above q item hi hq := keptBut_onPoints hq hi
  sequences q s hs := seqAt?_onPoints hs

/--
**A transform touches only its branches.**  Doing it succeeds and changes nothing but the tree and
the supply of words, and the tree keeps its keys and their order.  With a cursor none of whose points
begins with another one, the lists at the points are rewritten and nothing else is; without a cursor
every sequence becomes what the transform makes of it.
-/
theorem transform_splices (T : Transform) (m : Machine) (ha : PointsApart m.session.cursor)
    (hk : ∀ c, m.session.cursor = some c → c.key ≠ idField) : ∃ after words,
      transform T m = .ok ()
        ⟨{ m.session with tree := after }, { m.world with words := words }⟩ ∧
      after.skeleton = m.session.tree.skeleton ∧
      (∀ c, m.session.cursor = some c → Spliced T c m.world.words m.session.tree after) ∧
      (m.session.cursor = none → after.seqs.length = m.session.tree.seqs.length ∧
        ∀ done s rest, m.session.tree.seqs = done ++ s :: rest → after.seqs[done.length]? =
          some (.lazy (T.run s.flow (T.wordsAfter (done.map Seq.flow) m.world.words)).1)) := by
  rw [transform_apply]
  cases hc : m.session.cursor with
  | none =>
    refine ⟨_, _, rfl, Tree.skeleton_traverse _ _ _, fun c h => (by cases h), fun _ => ⟨?_, ?_⟩⟩
    · rw [seqs_traverse_transform]
      exact (traverseAll_transform _ _).1
    · exact fun done s rest h => getElem?_traverse h m.world.words
  | some c =>
    rw [hc] at ha
    have hpoints : (transformItems T).onBranches m.session { world := m.world } =
        (transformItems T).onPoints c.key c.points m.session.tree ⟨m.world, none⟩ := by
      rw [Rewrite.onBranches, hc]
    have hrun := rewriteBranches_eq_ok.2
      ⟨_, _, hpoints.trans (Prod.ext rfl (onPoints_transform ha)), rfl⟩
    have hskeleton := Rewrite.skeleton_onBranches (transformItems T) m.session { world := m.world }
    rw [hpoints] at hskeleton
    refine ⟨_, _, hrun, hskeleton, fun c' h => ?_, fun h => (by cases h)⟩
    cases h
    exact spliced_onPoints (hk c hc) ha m.session.tree m.world

/--
The friends of a member of a team and those of a guest are turned round; those of the team itself stay
as they are, and so does the other sequence, which is not even buffered.
-/
theorem transform_splices_reverse :
    let people (a b : Nat) : Value := .list [.record (.ofId (.ofNat a)), .record (.ofId (.ofNat b))]
    let person (friends : Value) : Item := ⟨[("friend", friends), ("age", .int 30)]⟩
    let team (friends : Value) (item : Item) : Item :=
      ⟨[(idField, .int 1), ("team", .list [.null, .record item]), ("friend", friends)]⟩
    let member : Path := [.entry 0, .item 0, .field "team", .item 1]
    let guest : Path := [.entry 0, .item 1]
    let m : Machine := ⟨{
      tree := .map [
        (.name "a", .seq (.buffered [team (people 3 4) (person (people 5 6)), person (people 7 8)])),
        (.name "b", .seq (.lazy (.ofList [.ofId (.int 9)])))]
      cursor := some ⟨[member, guest], "friend"⟩ }, {}⟩
    PointsApart m.session.cursor ∧ (∀ c, m.session.cursor = some c → c.key ≠ idField) ∧
    ∃ after words, transform .reverse m = .ok ()
        ⟨{ m.session with tree := after }, { m.world with words := words }⟩ ∧
      after.itemAt? member = some (person (people 6 5)) ∧
      after.itemAt? guest = some (person (people 8 7)) ∧
      (∃ item, after.itemAt? [.entry 0, .item 0] = some item ∧
        item.get? "friend" = some (people 3 4)) ∧
      after.seqAt? [.entry 1] = some (.lazy (.ofList [.ofId (.int 9)])) := by
  intro people person team member guest m
  have ha : PointsApart m.session.cursor :=
    List.pairwise_pair.2 (by decide : Path.Apart member guest)
  have hk : ∀ c, m.session.cursor = some c → c.key ≠ idField := fun c hc => by
    cases hc
    decide
  obtain ⟨after, words, hrun, -, hspliced, -⟩ := transform_splices .reverse m ha hk
  have hs := hspliced _ rfl
  obtain ⟨item, hitem, hkept⟩ := hs.above [.entry 0, .item 0] _ rfl (by decide)
  obtain ⟨s, hseq, -, hsame⟩ := hs.sequences [.entry 1] _ rfl
  refine ⟨ha, hk, after, words, hrun, ?_, ?_, ⟨item, hitem, ?_⟩, ?_⟩
  · exact hs.rewritten [] member [guest] rfl [] [.ofId (.ofNat 5), .ofId (.ofNat 6)] _ (by decide) rfl
  · exact hs.rewritten [member] guest [] rfl [] [.ofId (.ofNat 7), .ofId (.ofNat 8)] _ (by decide) rfl
  · exact hkept.fields "friend" (by decide)
  · rw [hseq, hsame (by decide)]

end Run

end GraphQuery
