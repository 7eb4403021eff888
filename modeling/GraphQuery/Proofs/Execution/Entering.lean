import GraphQuery.Proofs.Execution.Replanting
import GraphQuery.Proofs.Execution.Steps
/-!
# Cursors point into sequences

Whatever a plan does, a cursor that it leaves points into sequences of the tree it leaves
(`Plan.run_entered`), and a session that begins with a mapping ends with one
(`Plan.run_isMapping`).
-/

namespace GraphQuery

def Tree.EnteredBy (t : Tree) (c : Option Cursor) : Prop := ∀ p ∈ pointsOf c, t.Enters p

def Session.Entered (s : Session) : Prop := s.tree.EnteredBy s.cursor

theorem Session.entered_reset (s : Session) (t : Tree) : (s.reset t).Entered :=
  fun _ h => absurd h List.not_mem_nil

theorem pointsOf_nest (key : String) (s : Session) :
    pointsOf (s.nest key).cursor = (pointsOf s.cursor).map (.entry 0 :: ·) := by
  unfold Session.nest
  cases s.cursor <;> rfl

theorem Session.entered_nest (key : String) {s : Session} (h : s.Entered) :
    (s.nest key).Entered := by
  intro p hp
  rw [pointsOf_nest] at hp
  obtain ⟨q, hq, rfl⟩ := List.mem_map.1 hp
  exact ⟨_, rfl, h q hq⟩

/-! ## Rewriting branches -/

namespace Rewrite

theorem skeleton_onPoints (f : Rewrite) (key : String) : ∀ (points : List Path) (t : Tree)
    (a : Attempt), (f.onPoints key points t a).1.skeleton = t.skeleton
  | [], _, _ => rfl
  | p :: rest, t, a => by
    rw [onPoints]
    split
    · rfl
    · split
      · rw [skeleton_onPoints f key rest, Tree.enter, Tree.skeleton_changeItem]
      · rw [skeleton_onPoints f key rest, Tree.skeleton_changeItem]

theorem onPoints_keeps {f : Rewrite} {key : String} {motive : Option Item → Prop} {q : Path}
    (hf : ∀ item a, motive (some item) → motive (some (f.onField key item a).1)) :
    ∀ {points : List Path} {t : Tree} {a : Attempt}, (∀ p ∈ points, p = q ∨ p.Apart q) →
      motive (t.itemAt? q) → motive ((f.onPoints key points t a).1.itemAt? q)
  | [], _, _, _, h => h
  | p :: rest, t, a, hq, h => by
    obtain ⟨hp, hrest⟩ := List.forall_mem_cons.1 hq
    rw [onPoints]
    split
    · exact h
    · split
      · exact onPoints_keeps hf hrest (by rwa [Tree.itemAt?_enter])
      · rename_i item hi
        refine onPoints_keeps hf hrest ?_
        rcases hp with rfl | hp
        · rw [Tree.itemAt?_changeItem, hi]
          exact hf item a (hi ▸ h)
        · rwa [Tree.itemAt?_changeItem_apart _ hp]

theorem skeleton_onBranches (f : Rewrite) (s : Session) (a : Attempt) :
    (f.onBranches s a).1.skeleton = s.tree.skeleton := by
  unfold onBranches
  split
  · exact Tree.skeleton_traverse _ _ _
  · exact skeleton_onPoints f _ _ _ _

end Rewrite

namespace Run

variable {m m' : Machine}

structure Reshaped (s s' : Session) : Prop where
  skeleton : s'.tree.skeleton = s.tree.skeleton
  cursor : s'.cursor = s.cursor

theorem Reshaped.entered {s s' : Session} (h : Reshaped s s') (hs : s.Entered) : s'.Entered := by
  intro p hp
  rw [h.cursor] at hp
  exact (Tree.enters_congr h.skeleton).2 (hs p hp)

theorem reshaped_of_rewriteBranches {f : Rewrite} (h : rewriteBranches f m = .ok () m') :
    Reshaped m.session m'.session := by
  obtain ⟨t, w, ht, rfl⟩ := rewriteBranches_eq_ok.1 h
  have hs := Rewrite.skeleton_onBranches f m.session { world := m.world }
  rw [ht] at hs
  exact ⟨hs, rfl⟩

theorem reshaped_of_transform {t : Transform} (h : transform t m = .ok () m') :
    Reshaped m.session m'.session := by
  rw [transform_apply] at h
  split at h
  · exact reshaped_of_rewriteBranches h
  · cases h
    exact ⟨Tree.skeleton_traverse _ _ _, rfl⟩

end Run

/-! ## Attaching edges -/

namespace Edges

theorem path_of_lookup {b : Backend} {type : String} : ∀ {leaves : List Leaf} {w w' : World}
    {found : List Found} {e : Option QueryError},
    lookup b type leaves w = ⟨found, e, w'⟩ → ∀ f ∈ found, ∃ leaf ∈ leaves, leaf.path = f.path
  | [], w, w', found, e, h, f, hf => by
    cases h
    cases hf
  | leaf :: rest, w, w', found, e, h, f, hf => by
    rw [lookup] at h
    split at h
    · obtain ⟨l, hl, hp⟩ := path_of_lookup h f hf
      exact ⟨l, List.mem_cons_of_mem leaf hl, hp⟩
    · split at h
      · cases h
        cases hf
      · cases h
        rcases List.mem_cons.1 hf with rfl | hf
        · exact ⟨leaf, List.mem_cons_self, rfl⟩
        · obtain ⟨l, hl, hp⟩ := path_of_lookup rfl f hf
          exact ⟨l, List.mem_cons_of_mem leaf hl, hp⟩

theorem skeleton_commit (type : String) : ∀ (found : List Found) (t : Tree),
    (commit type found t).2.skeleton = t.skeleton
  | [], _ => rfl
  | _ :: rest, t => (skeleton_commit type rest _).trans (Tree.skeleton_changeItem _ _ t)

theorem mem_commit {type : String} {p : Path} : ∀ {found : List Found} {t : Tree},
    p ∈ (commit type found t).1 → ∃ f ∈ found, f.path = p
  | [], t, h => by cases h
  | f :: rest, t, h => by
    simp only [commit] at h
    split at h
    · rcases List.mem_cons.1 h with rfl | h
      · exact ⟨f, List.mem_cons_self, rfl⟩
      · obtain ⟨g, hg, hp⟩ := mem_commit h
        exact ⟨g, List.mem_cons_of_mem f hg, hp⟩
    · obtain ⟨g, hg, hp⟩ := mem_commit h
      exact ⟨g, List.mem_cons_of_mem f hg, hp⟩

end Edges

namespace Run

variable {b : Backend} {type : String} {m m' : Machine}

theorem skeleton_of_attach (h : attach b type m = .ok () m') :
    m'.session.tree.skeleton = m.session.tree.skeleton := by
  obtain ⟨found, w, -, rfl⟩ := attach_eq_ok.1 h
  exact (Edges.skeleton_commit _ _ _).trans (Tree.skeleton_force _)

theorem entered_of_attach (h : attach b type m = .ok () m') : m'.session.Entered := by
  intro p hp
  rw [Tree.enters_congr (skeleton_of_attach h)]
  obtain ⟨found, w, hl, rfl⟩ := attach_eq_ok.1 h
  obtain ⟨f, hf, rfl⟩ := Edges.mem_commit hp
  obtain ⟨leaf, hleaf, hpath⟩ := Edges.path_of_lookup hl f hf
  rw [← hpath]
  exact Tree.enters_of_mem_leaves hleaf

end Run

/-! ## Mappings -/

theorem Tree.isMapping_of_merge {t u v : Tree} (ht : t.IsMapping) (hu : u.IsMapping)
    (h : t.merge u = .ok v) : v.IsMapping := by
  obtain ⟨entries, rfl⟩ := ht
  obtain ⟨others, rfl⟩ := hu
  rw [merge, mergeUnder] at h
  cases hm : mergeEntries entries others with
  | error e => rw [hm] at h; cases h
  | ok merged =>
    rw [hm] at h
    cases h
    exact ⟨merged, rfl⟩

theorem Tree.isMapping_ofJson (j : Json) : (Tree.ofJson j).IsMapping := by
  unfold Tree.ofJson
  split
  · split
    · exact ⟨_, rfl⟩
    · exact ⟨_, rfl⟩
  · split
    · exact ⟨_, rfl⟩
    · exact ⟨_, rfl⟩

theorem Session.isMapping_ofScope (scope : Option (List Item)) :
    (Session.ofScope scope).tree.IsMapping := by
  cases scope with
  | none => exact ⟨_, rfl⟩
  | some items => exact ⟨_, rfl⟩

namespace Replant

variable {origins : List Leaf} {results : List Item} {sub : Option Cursor} {outer : Placed}
  {child : Session}

theorem isMapping_replantOrReplace (ho : outer.tree.IsMapping) :
    (replantOrReplace origins results sub outer).tree.IsMapping := by
  cases h : homeless origins results with
  | true =>
    rw [replantOrReplace_of_homeless h]
    exact ⟨_, rfl⟩
  | false => exact ho.of_skeleton (replanted_of_settled _ _ h).skeleton

theorem isMapping_hangAll {branch : Path → Placed} : ∀ {paths : List Path} {whole : Placed},
    (∀ p ∈ paths, p ≠ []) → whole.tree.IsMapping →
      (hangAll branch paths whole).tree.IsMapping
  | [], _, _, hw => hw
  | p :: rest, whole, hp, hw => by
    rw [hangAll, List.foldl_cons, ← hangAll]
    refine isMapping_hangAll (fun q hq => hp q (List.mem_cons_of_mem p hq)) ?_
    rw [hang_tree]
    exact Tree.isMapping_changeSubtree hw (hp p List.mem_cons_self)

theorem isMapping_place (ho : outer.tree.IsMapping) (hc : child.tree.IsMapping) :
    (place origins child outer).tree.IsMapping := by
  unfold place
  split
  · exact isMapping_replantOrReplace ho
  · rw [replantUnder_eq]
    refine isMapping_hangAll (fun p hp => ?_) hc
    rintro rfl
    obtain ⟨s, hs⟩ := exists_seq_of_mem_seqPaths hp
    obtain ⟨entries, he⟩ := hc
    rw [he] at hs
    cases hs

theorem mem_below {p q : Path} : q ∈ pointsOf (sub.map (below p)) ↔ p ++ q ∈ pointsOf sub := by
  cases sub with
  | none => simp [pointsOf]
  | some c =>
    show q ∈ c.points.filterMap (Path.strip? · p) ↔ p ++ q ∈ c.points
    rw [List.mem_filterMap]
    simp only [Path.strip?_eq_some_iff, exists_eq_right]

theorem enters_branchAt {shaped : Tree} {p : Path} {s : Seq Item}
    (hl : ∀ leaf ∈ origins, Tree.Enters leaf.path outer.tree)
    (ho : outer.tree.EnteredBy outer.cursor) (hc : shaped.EnteredBy sub)
    (hp : shaped.subtree? p = some (.seq s)) :
    ∀ q ∈ pointsOf (branchAt origins outer sub shaped p).cursor,
      Tree.Enters (unlift (branchAt origins outer sub shaped p).tree.single?.isSome q)
        (lift (branchAt origins outer sub shaped p).tree) := by
  intro q hq
  cases h : homeless origins (itemsAt shaped p) with
  | true =>
    rw [branchAt, replantOrReplace_of_homeless h] at hq ⊢
    have he := (Tree.enters_subtree? hp).1 (hc _ (mem_below.1 hq))
    obtain ⟨j, rest, rfl⟩ := Tree.eq_of_enters_seq he
    trivial
  | false => exact (enters_lift ((replanted_of_settled _ _ h).enters hl ho q hq)).1

/-- **What is put back has a cursor into its sequences.** -/
theorem enteredBy_place (hl : ∀ leaf ∈ origins, Tree.Enters leaf.path outer.tree)
    (ho : outer.tree.EnteredBy outer.cursor) (hm : child.tree.IsMapping) (hc : child.Entered) :
    (place origins child outer).tree.EnteredBy (place origins child outer).cursor := by
  unfold place
  split
  · rename_i s hs
    cases h : homeless origins s.toList with
    | true =>
      rw [replantOrReplace_of_homeless h]
      intro q hq
      have he := hc q hq
      rw [hm.eq_anon hs] at he
      obtain ⟨j, rest, rfl⟩ := Tree.eq_of_enters_anon he
      exact ⟨_, rfl, trivial⟩
    | false => exact (replanted_of_settled _ _ h).enters hl ho
  · rw [replantUnder_eq]
    intro q hq
    obtain ⟨p, hp, r, hr, rfl⟩ := mem_hangAll_points.1 hq
    obtain ⟨s, hs⟩ := exists_seq_of_mem_seqPaths hp
    have hf := Tree.skeleton_force outer.tree
    refine (Tree.enters_subtree? (subtree?_hangAll_seqPaths hp)).2
      (enters_branchAt (fun leaf h => ?_) (fun q hq => ?_) hc hs r hr)
    · exact (Tree.enters_congr hf).2 (hl leaf h)
    · exact (Tree.enters_congr hf).2 (ho q hq)

end Replant

/-! ## Runs -/

namespace Plan

variable {b : Backend}

/-- **A run that begins with a mapping ends with one.** -/
theorem run_isMapping (p : Plan) : ∀ {m m' : Machine}, run b p m = .ok () m' →
    m.session.tree.IsMapping → m'.session.tree.IsMapping := by
  induction p using Plan.induction with
  | literal values => intro m m' h _; cases h; exact ⟨_, rfl⟩
  | json document => intro m m' h _; cases h; exact Tree.isMapping_ofJson document
  | transform t q ih =>
    intro m m' h hm
    obtain ⟨mq, hq, h⟩ := run_transform.1 h
    exact (ih hq hm).of_skeleton (Run.reshaped_of_transform h).skeleton
  | aggregate q ih =>
    intro m m' h _
    obtain ⟨mq, -, rfl⟩ := run_aggregate.1 h
    exact ⟨_, rfl⟩
  | combine how operands ih =>
    intro m m' h _
    rcases run_combine h with ⟨f, ts, w, -, -, rfl⟩ | ⟨-, merged, m₁, hr, rfl⟩
    · exact ⟨_, rfl⟩
    · have hg := (runMerge_induction Tree.IsMapping
        (fun t u v ht hu h => Tree.isMapping_of_merge ht hu h)
        (fun p hp t ⟨w, after, hr, ht⟩ => ht ▸ ih p hp hr (Session.isMapping_ofScope _))
        (fun _ h => by cases h) hr).2
      cases merged with
      | none => exact ⟨_, rfl⟩
      | some t => exact hg t rfl
  | difference l r _ _ =>
    intro m m' h _
    obtain ⟨_, _, _, -, -, rfl⟩ := run_difference h
    exact ⟨_, rfl⟩
  | nest key q ih =>
    intro m m' h _
    obtain ⟨mq, -, rfl⟩ := run_nest.1 h
    exact ⟨_, rfl⟩
  | target names q ih =>
    intro m m' h hm
    obtain ⟨mq, hq, rfl⟩ := run_target.1 h
    have := ih hq hm
    exact this
  | apply s q ihs ihq =>
    intro m m' h hm
    obtain ⟨mq, hq, child, hs, rfl⟩ := run_apply.1 h
    exact Replant.isMapping_place ((ihq hq hm).of_skeleton (Tree.skeleton_force _))
      (ihs hs (Tree.isMapping_anon _))
  | assoc type q ih =>
    intro m m' h hm
    obtain ⟨mq, hq, h⟩ := run_assoc.1 h
    exact (ih hq hm).of_skeleton (Run.skeleton_of_attach h)
  | assocHere type =>
    intro m m' h hm
    exact hm.of_skeleton (Run.skeleton_of_attach h)
  | obj q ih =>
    intro m m' h hm
    obtain ⟨mq, hq, h⟩ := run_obj.1 h
    exact (ih hq hm).of_skeleton (Run.reshaped_of_rewriteBranches h).skeleton
  | exist q ih =>
    intro m m' h _
    obtain ⟨found, w, rfl⟩ := run_exist h
    exact ⟨_, rfl⟩

/-- **A cursor that a run leaves points into sequences of the tree it leaves.** -/
theorem run_entered (p : Plan) : ∀ {m m' : Machine}, run b p m = .ok () m' →
    m'.session.Entered := by
  induction p using cursor_induction with
  | anew p hp =>
    intro m m' h
    obtain ⟨s, t, w, rfl⟩ := run_startsAnew hp h
    exact Session.entered_reset s t
  | transform t q ih =>
    intro m m' h
    obtain ⟨mq, hq, h⟩ := run_transform.1 h
    exact (Run.reshaped_of_transform h).entered (ih hq)
  | nest key q ih =>
    intro m m' h
    obtain ⟨mq, hq, rfl⟩ := run_nest.1 h
    exact Session.entered_nest key (ih hq)
  | target names q ih =>
    intro m m' h
    obtain ⟨mq, hq, rfl⟩ := run_target.1 h
    have := ih hq
    exact this
  | apply s q ihs ihq =>
    intro m m' h
    obtain ⟨mq, hq, child, hs, rfl⟩ := run_apply.1 h
    have hf := Tree.skeleton_force mq.session.tree
    exact Replant.enteredBy_place
      (fun leaf h => (Tree.enters_congr hf).2 (Tree.enters_of_mem_leaves h))
      (fun r hr => (Tree.enters_congr hf).2 (ihq hq r hr))
      (run_isMapping s hs (Tree.isMapping_anon _)) (ihs hs)
  | assoc type q ih =>
    intro m m' h
    obtain ⟨mq, -, h⟩ := run_assoc.1 h
    exact Run.entered_of_attach h
  | assocHere type =>
    intro m m' h
    exact Run.entered_of_attach h
  | obj q ih =>
    intro m m' h
    obtain ⟨mq, hq, h⟩ := run_obj.1 h
    exact (Run.reshaped_of_rewriteBranches h).entered (ih hq)

end Plan

end GraphQuery
