import GraphQuery.Proofs.Tree.Sequences
/-!
# Taking items out

After an item was taken out of a tree, the shifted paths lead where the paths led before: to the
same item if it is not above what was taken out (`Tree.itemAt?_removeAt`), and to an item in any
case (`Tree.isSome_itemAt?_removeAt`).
-/

namespace GraphQuery

theorem getElem?_eraseIdx_moveUp {α : Type} (xs : List α) {j k j' : Nat} (h : j ≠ k)
    (hj : (Step.item j).moveUp (.item k) = .item j') : (xs.eraseIdx k)[j']? = xs[j]? := by
  simp only [Step.moveUp] at hj
  rw [List.getElem?_eraseIdx]
  split at hj
  · cases hj
    rw [if_neg (by omega)]
    congr 1
    omega
  · cases hj
    rw [if_pos (by omega)]

theorem exists_moveUp_item (j k : Nat) : ∃ j', (Step.item j).moveUp (.item k) = .item j' := by
  simp only [Step.moveUp]
  split
  · exact ⟨_, rfl⟩
  · exact ⟨_, rfl⟩

namespace Item

theorem removeElement_eq {item : Item} {name : String} {vs : List Value}
    (h : item.elements? name = some vs) (k : Nat) :
    Tree.removeElement name k item = item.withElements name (vs.eraseIdx k) := by
  simp only [Tree.removeElement, h, withElements]

theorem within?_removeElement {item inner : Item} {name : String} {k : Nat} {q q' : Path}
    {vs : List Value} (hv : item.elements? name = some vs) (hne : q ≠ [])
    (hs : Path.shift? [.field name, .item k] q = some q') (hq : within? q item = some inner) :
    within? q' (Tree.removeElement name k item) = some inner := by
  rw [removeElement_eq hv]
  cases q using path_induction with
  | nil => exact absurd rfl hne
  | stray q hq' => rw [hq'] at hq; cases hq
  | step other l q =>
    rw [within?_cons_cons] at hq
    rw [Path.shift?_cons_cons _ _ (by simp)] at hs
    split at hs
    · rename_i ho
      cases ho
      rw [Path.shift?_singleton] at hs
      split at hs
      · cases hs
      · rename_i hl
        obtain ⟨l', hl'⟩ := exists_moveUp_item l k
        rw [hl'] at hs
        cases hs
        rw [within?_cons_cons, ← hq]
        unfold child?
        rw [elements?_withElements hv, if_pos rfl, hv, Option.bind_some, Option.bind_some,
          getElem?_eraseIdx_moveUp vs (fun he => hl (congrArg Step.item he)) hl']
    · rename_i ho
      cases hs
      rw [within?_cons_cons, ← hq]
      unfold child?
      rw [elements?_withElements hv, if_neg (fun he : other = name => ho (he ▸ rfl))]

end Item

namespace Tree

theorem itemAt?_cases {p : Path} {t : Tree} {item : Item} (h : t.itemAt? p = some item) :
    (∃ o k s, p = o ++ [.item k] ∧ (∀ name, o.getLast? ≠ some (.field name)) ∧
      t.seqAt? o = some s ∧ s.toList[k]? = some item) ∨
    (∃ o name k owner, p = o ++ [.field name, .item k] ∧ t.itemAt? o = some owner ∧
      owner.child? name k = some item) := by
  induction p, t using path_induction with
  | entry i p entries key t he ih =>
    rw [itemAt?_entry, he] at h
    obtain ⟨o, k, s, rfl, hf, ho, hk⟩ | ⟨o, name, k, owner, rfl, ho, hc⟩ := ih h
    · refine .inl ⟨.entry i :: o, k, s, rfl, fun name => ?_, ?_, hk⟩
      · cases o with
        | nil => simp
        | cons a o => rw [List.getLast?_cons_cons]; exact hf name
      · rw [seqAt?, subtree?_entry, he]
        exact ho
    · refine .inr ⟨.entry i :: o, name, k, owner, rfl, ?_, hc⟩
      rw [itemAt?_entry, he]
      exact ho
  | item j p s =>
    rw [itemAt?_item] at h
    obtain ⟨top, hj, h⟩ := Option.bind_eq_some_iff.1 h
    obtain ⟨rfl, rfl⟩ | ⟨o, name, k, owner, rfl, ho, hc⟩ := Item.within?_cases h
    · exact .inl ⟨[], j, s, rfl, by simp, rfl, hj⟩
    · refine .inr ⟨.item j :: o, name, k, owner, rfl, ?_, hc⟩
      rw [itemAt?_item, hj]
      exact ho
  | stray p t hp => rw [hp] at h; cases h

theorem removeAt_field (o : Path) (name : String) (k : Nat) (t : Tree) :
    t.removeAt (o ++ [.field name, .item k]) =
      ⟨(((t.itemAt? o).bind (·.elements? name)).bind (·[k]?)).map Item.ofValue,
        t.changeItem (removeElement name k) o⟩ := by
  have h1 : (o ++ [Step.field name, Step.item k]).getLast? = some (.item k) := by simp
  have h2 : (o ++ [Step.field name, Step.item k]).dropLast = o ++ [.field name] := by
    rw [List.dropLast_append_of_ne_nil (by simp)]
    rfl
  simp only [removeAt, h1, h2, List.getLast?_concat, List.dropLast_concat]

theorem tree_removeAt_field (o : Path) (name : String) (k : Nat) (t : Tree) :
    (t.removeAt (o ++ [.field name, .item k])).tree = t.changeItem (removeElement name k) o := by
  rw [removeAt_field]

theorem tree_removeAt_item {o : Path} (ho : ∀ name, o.getLast? ≠ some (.field name)) (k : Nat)
    (t : Tree) :
    (t.removeAt (o ++ [.item k])).tree =
      t.changeSeq (fun s => .buffered (s.toList.eraseIdx k)) o := by
  simp only [removeAt, List.getLast?_concat, List.dropLast_concat]

variable {r q q' : Path} {t : Tree} {gone item : Item}

theorem removeAt_cases (h : (t.removeAt r).item = some gone) :
    (∃ o k s, r = o ++ [.item k] ∧ (∀ name, o.getLast? ≠ some (.field name)) ∧
      t.seqAt? o = some s ∧ s.toList[k]? = some gone) ∨
    (∃ o name k owner vs v, r = o ++ [.field name, .item k] ∧ t.itemAt? o = some owner ∧
      owner.elements? name = some vs ∧ vs[k]? = some v ∧ gone = Item.ofValue v) := by
  unfold removeAt at h
  split at h
  · rename_i k hlast
    obtain ⟨o, rfl⟩ := List.getLast?_eq_some_iff.1 hlast
    rw [List.dropLast_concat] at h
    split at h
    · rename_i name hfield
      obtain ⟨o, rfl⟩ := List.getLast?_eq_some_iff.1 hfield
      rw [List.dropLast_concat] at h
      obtain ⟨v, hv, hgone⟩ := Option.map_eq_some_iff.1 h
      obtain ⟨vs, hvs, hk⟩ := Option.bind_eq_some_iff.1 hv
      obtain ⟨owner, ho, hvs⟩ := Option.bind_eq_some_iff.1 hvs
      exact .inr ⟨o, name, k, owner, vs, v, List.append_assoc .., ho, hvs, hk, hgone.symm⟩
    · rename_i hfield
      obtain ⟨s, hs, hk⟩ := Option.bind_eq_some_iff.1 h
      exact .inl ⟨o, k, s, rfl, hfield, hs, hk⟩
  · cases h

theorem item_removeAt (h : t.itemAt? r = some gone) : (t.removeAt r).item = some gone := by
  obtain ⟨o, k, s, rfl, hf, ho, hk⟩ | ⟨o, name, k, owner, rfl, ho, hc⟩ := itemAt?_cases h
  · simp only [removeAt, List.getLast?_concat, List.dropLast_concat, ho, Option.bind_some, hk]
  · obtain ⟨vs, hv, hk⟩ := Item.child?_eq_some.1 hc
    rw [removeAt_field, ho, Option.bind_some, hv, Option.bind_some, hk]
    rfl

theorem itemAt?_eraseIdx {s : Seq Item} {k : Nat} (hq : (seq s).itemAt? q = some item)
    (hs : Path.shift? [.item k] q = some q') :
    (seq (.buffered (s.toList.eraseIdx k))).itemAt? q' = some item := by
  cases q with
  | nil => cases hq
  | cons a q =>
    cases a with
    | item j =>
      rw [Path.shift?_singleton] at hs
      split at hs
      · cases hs
      · rename_i hj
        obtain ⟨j', hj'⟩ := exists_moveUp_item j k
        rw [hj'] at hs
        cases hs
        rw [itemAt?_item] at hq ⊢
        rw [Seq.toList, getElem?_eraseIdx_moveUp _ (fun he => hj (congrArg Step.item he)) hj']
        exact hq
    | entry i => cases hq
    | field name => cases hq

/-- **What stays is found at the shifted path.** -/
theorem itemAt?_removeAt (hr : (t.removeAt r).item = some gone) (hq : t.itemAt? q = some item)
    (hs : Path.shift? r q = some q') (hqr : ¬ q <+: r) :
    (t.removeAt r).tree.itemAt? q' = some item := by
  obtain ⟨o, k, s, rfl, hf, ho, -⟩ | ⟨o, name, k, owner, vs, v, rfl, ho, hv, -⟩ := removeAt_cases hr
  · rw [tree_removeAt_item hf, changeSeq]
    have hsub := seqAt?_eq_some.1 ho
    -- `q` goes into the sequence, or ends before it, or goes elsewhere
    rcases Path.prefix_or_apart o q with ⟨q₁, rfl⟩ | ⟨q₁, rfl⟩ | ha
    · rw [itemAt?_subtree? hsub] at hq
      rw [Path.shift?_append o (by simp)] at hs
      obtain ⟨q₂, hq₂, rfl⟩ := Option.map_eq_some_iff.1 hs
      rw [itemAt?_changeSubtree_below hsub]
      exact itemAt?_eraseIdx hq hq₂
    · exact absurd (List.prefix_append q _) (by rwa [List.append_assoc] at hqr)
    · rw [Path.shift?_of_apart ha (by simp)] at hs
      cases hs
      rw [itemAt?_changeSubtree_apart ha, hq]
  · rw [tree_removeAt_field]
    rcases Path.prefix_or_apart o q with ⟨q₁, rfl⟩ | ⟨q₁, rfl⟩ | ha
    · rw [itemAt?_append ho] at hq
      rw [Path.shift?_append o (by simp)] at hs
      obtain ⟨q₂, hq₂, rfl⟩ := Option.map_eq_some_iff.1 hs
      have hne : q₁ ≠ [] := by
        rintro rfl
        rw [List.append_nil] at hqr
        exact hqr (List.prefix_append o _)
      rw [itemAt?_changeItem_below _ ho]
      exact Item.within?_removeElement hv hne hq₂ hq
    · exact absurd (List.prefix_append q _) (by rwa [List.append_assoc] at hqr)
    · rw [Path.shift?_of_apart ha (by simp)] at hs
      cases hs
      rw [itemAt?_changeItem_apart _ ha, hq]

theorem itemAt?_removeAt_above {rest : Path} (hr : (t.removeAt (q ++ rest)).item = some gone)
    (hq : t.itemAt? q = some item) (hrest : rest ≠ []) :
    ∃ o name k owner vs v, rest = o ++ [.field name, .item k] ∧ item.within? o = some owner ∧
      owner.elements? name = some vs ∧ vs[k]? = some v ∧ gone = Item.ofValue v ∧
        (t.removeAt (q ++ rest)).tree.itemAt? q =
          some (item.changeWithin (removeElement name k) o) := by
  obtain ⟨o, k, s, hp, hf, ho, -⟩ | ⟨o, name, k, owner, vs, v, hp, ho, hv, hk, rfl⟩ :=
    removeAt_cases hr
  · -- a sequence does not stand below an item
    have hqo : q <+: o := (List.prefix_concat_iff.1 (hp ▸ List.prefix_append q rest)).resolve_left
      fun he => hrest (List.append_right_eq_self.1 (hp.trans he.symm))
    obtain ⟨z, rfl⟩ := hqo
    rw [seqAt?_eq_some, subtree?_of_itemAt? hq] at ho
    cases ho
  · have hqo : q <+: o := by
      have hc : o ++ [Step.field name, .item k] = (o ++ [.field name]) ++ [.item k] := by simp
      have hqr : q <+: (o ++ [.field name]) ++ [.item k] := hc ▸ hp ▸ List.prefix_append q rest
      have hne : q ≠ (o ++ [.field name]) ++ [.item k] := fun he =>
        hrest (List.append_right_eq_self.1 (hp.trans (hc.trans he.symm)))
      rcases List.prefix_concat_iff.1 ((List.prefix_concat_iff.1 hqr).resolve_left hne) with rfl | h
      · rw [itemAt?_append ho] at hq
        cases hq
      · exact h
    obtain ⟨z, rfl⟩ := hqo
    rw [List.append_assoc] at hp
    cases List.append_cancel_left hp
    rw [itemAt?_append hq] at ho
    refine ⟨z, name, k, owner, vs, v, rfl, ho, hv, hk, rfl, ?_⟩
    rw [← List.append_assoc, tree_removeAt_field, itemAt?_changeItem_above _ hq]

/-- **Every path that stays leads to an item.** -/
theorem isSome_itemAt?_removeAt (hr : (t.removeAt r).item = some gone)
    (hq : (t.itemAt? q).isSome = true) (hs : Path.shift? r q = some q') :
    ((t.removeAt r).tree.itemAt? q').isSome = true := by
  obtain ⟨item, hq⟩ := Option.isSome_iff_exists.1 hq
  by_cases hqr : q <+: r
  · obtain ⟨rest, rfl⟩ := hqr
    have hrest : rest ≠ [] := by
      rintro rfl
      rw [List.append_nil, Path.shift?_eq_none.2 (List.prefix_refl q)] at hs
      cases hs
    rw [Path.shift?_append_self q hrest] at hs
    cases hs
    obtain ⟨o, name, k, owner, vs, v, -, -, -, -, -, h⟩ := itemAt?_removeAt_above hr hq hrest
    rw [h]
    rfl
  · rw [itemAt?_removeAt hr hq hs hqr]
    rfl

/-! ## What a removal keeps -/

theorem skeleton_changeSeq (f : Seq Item → Seq Item) :
    (t.changeSeq f r).skeleton = t.skeleton := by
  unfold changeSeq
  induction r, t using subtree_induction with
  | nil t => cases t <;> rfl
  | entry i p entries key t he ih =>
    rw [changeSubtree_entry he]
    exact skeleton_set he ih
  | stray p t hp hc => rw [hc]

theorem skeleton_removeAt : (t.removeAt r).tree.skeleton = t.skeleton := by
  unfold removeAt
  split
  · split
    · exact skeleton_changeItem _ _ t
    · exact skeleton_changeSeq _
  · rfl

theorem enters_removeAt : Enters q (t.removeAt r).tree ↔ Enters q t :=
  enters_congr skeleton_removeAt

end Tree

end GraphQuery
