import GraphQuery.Proofs.Tree.Sequences
/-!
# What a change leaves alone

Changing the item at a path changes nothing in the items above it but what the path passes through:
they keep the names of their fields, the fields that it does not enter, and of the list that it
enters the length and the other elements (`Tree.keptBut_changeItem`).  Every sequence keeps its
length, and one that the path does not enter is not even buffered (`Tree.seqAt?_changeItem`).
-/

namespace GraphQuery

/--
What becomes of an item when things change only along the paths that a test passes: the names of its
fields stay, and so do the other fields, the lengths of all lists, and their other elements.
-/
structure Item.KeptBut (passed : Path → Prop) (item item' : Item) : Prop where
  names : item'.names = item.names
  fields : ∀ name, ¬ passed [.field name] → item'.get? name = item.get? name
  elements : ∀ name vs, item.get? name = some (.list vs) → ∃ vs',
    item'.get? name = some (.list vs') ∧ vs'.length = vs.length ∧
      ∀ k, ¬ passed [.field name, .item k] → vs'[k]? = vs[k]?

namespace Item

variable {passed also : Path → Prop} {item item' item'' : Item}

theorem KeptBut.refl (passed : Path → Prop) (item : Item) : item.KeptBut passed item :=
  ⟨rfl, fun _ _ => rfl, fun _ vs h => ⟨vs, h, rfl, fun _ _ => rfl⟩⟩

theorem KeptBut.trans (h : item.KeptBut passed item') (h' : item'.KeptBut passed item'') :
    item.KeptBut passed item'' where
  names := h'.names.trans h.names
  fields name hn := (h'.fields name hn).trans (h.fields name hn)
  elements name vs hv := by
    obtain ⟨vs', hv', hlen, hk⟩ := h.elements name vs hv
    obtain ⟨vs'', hv'', hlen', hk'⟩ := h'.elements name vs' hv'
    exact ⟨vs'', hv'', hlen'.trans hlen, fun k hn => (hk' k hn).trans (hk k hn)⟩

theorem KeptBut.mono (h : item.KeptBut passed item') (hp : ∀ r, passed r → also r) :
    item.KeptBut also item' where
  names := h.names
  fields name hn := h.fields name fun hpn => hn (hp _ hpn)
  elements name vs hv := by
    obtain ⟨vs', hv', hlen, hk⟩ := h.elements name vs hv
    exact ⟨vs', hv', hlen, fun k hn => hk k fun hpn => hn (hp _ hpn)⟩

theorem keptBut_changeWithin (f : Item → Item) {r : Path} (hr : r ≠ []) (item : Item) :
    item.KeptBut (· <+: r) (item.changeWithin f r) := by
  cases r using path_induction with
  | nil => exact absurd rfl hr
  | stray p _ hc =>
    rw [hc]
    exact .refl _ item
  | step name k p =>
    cases hc : item.child? name k with
    | none =>
      rw [changeWithin_of_child?_none hc]
      exact .refl _ item
    | some inner =>
      obtain ⟨vs, hv, hk⟩ := child?_eq_some.1 hc
      rw [changeWithin_cons_cons hv hk]
      have ha := assign?_withElements hv (vs.set k (.record (changeWithin f p inner)))
      refine ⟨Record.names_of_assign? ha, fun other hn => ?_, fun other ws hw => ?_⟩
      · rw [Record.get?_of_assign? ha, if_neg]
        rintro rfl
        exact hn ⟨.item k :: p, rfl⟩
      · rw [Record.get?_of_assign? ha]
        by_cases ho : other = name
        · subst ho
          rw [get?_of_elements? hv] at hw
          cases hw
          refine ⟨_, if_pos rfl, List.length_set, fun j hn => List.getElem?_set_ne ?_⟩
          rintro rfl
          exact hn ⟨p, rfl⟩
        · exact ⟨ws, (if_neg ho).trans hw, rfl, fun _ _ => rfl⟩

end Item

namespace Tree

variable {p q : Path} {t : Tree}

/-- **An item above a changed one, or apart from it, keeps what the path does not pass.** -/
theorem keptBut_changeItem (f : Item → Item) {item : Item} (hq : ¬ p <+: q)
    (h : t.itemAt? q = some item) : ∃ item', (t.changeItem f p).itemAt? q = some item' ∧
      item.KeptBut (fun r => q ++ r <+: p) item' := by
  rcases Path.prefix_or_apart p q with hp | ⟨r, rfl⟩ | ha
  · exact absurd hp hq
  · have hr : r ≠ [] := by
      rintro rfl
      exact hq ⟨[], by rw [List.append_nil, List.append_nil]⟩
    refine ⟨_, itemAt?_changeItem_above f h r, (Item.keptBut_changeWithin f hr item).mono ?_⟩
    exact fun s hs => (List.prefix_append_right_inj q).2 hs
  · exact ⟨item, (itemAt?_changeItem_apart f ha t).trans h, .refl _ item⟩

/-- **A change keeps the lengths of sequences**, and the sequences that its path does not enter. -/
theorem seqAt?_changeItem (f : Item → Item) {s : Seq Item} (h : t.seqAt? q = some s) :
    ∃ s', (t.changeItem f p).seqAt? q = some s' ∧ s'.toList.length = s.toList.length ∧
      (¬ q <+: p → s' = s) := by
  induction p, t using path_induction generalizing q with
  | stray p t _ hc =>
    rw [hc]
    exact ⟨s, h, rfl, fun _ => rfl⟩
  | item j p s₀ =>
    cases q with
    | nil =>
      cases h
      exact ⟨_, rfl, List.length_modify .., fun hn => absurd List.nil_prefix hn⟩
    | cons a q => cases a <;> cases h
  | entry i p entries key t he ih =>
    rw [changeItem_entry he]
    rw [seqAt?_eq_some] at h
    cases q with
    | nil => cases h
    | cons a q =>
      cases a with
      | item k => cases h
      | field name => cases h
      | entry k =>
        rw [subtree?_entry] at h
        by_cases hk : k = i
        · subst hk
          rw [he, Option.bind_some] at h
          obtain ⟨s', hs', hlen, hsame⟩ := ih (seqAt?_eq_some.2 h)
          refine ⟨s', ?_, hlen, fun hn => hsame fun hp => hn ?_⟩
          · rw [seqAt?_eq_some, subtree?_entry, getElem?_set_of_some he, if_pos rfl]
            exact seqAt?_eq_some.1 hs'
          · exact List.cons_prefix_cons.2 ⟨rfl, hp⟩
        · refine ⟨s, ?_, rfl, fun _ => rfl⟩
          rw [seqAt?_eq_some, subtree?_entry, getElem?_set_of_some he, if_neg (Ne.symm hk)]
          exact h

end Tree

end GraphQuery
