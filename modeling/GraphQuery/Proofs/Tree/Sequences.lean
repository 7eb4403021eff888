import GraphQuery.Proofs.Tree.Skeleton
/-!
# The sequences of a tree

Buffering a tree changes none of its items.  A path *enters* a tree when it leads into one of its
sequences, at whatever position; changing and removing items keeps what a path enters.  Another
tree can be put in the place of a subtree: below that place paths see the new tree, and paths that
lie apart see nothing of it.
-/

namespace GraphQuery

namespace Tree

/-! ## Buffering -/

theorem force_seq (s : Seq Item) : (seq s).force = seq s.force := rfl

theorem force_map (entries : List (Key × Tree)) :
    (map entries).force = map (entries.map fun e => (e.1, e.2.force)) :=
  mapSeqs_map _ entries

@[simp] theorem force_force (t : Tree) : t.force.force = t.force := mapSeqs_mapSeqs _ _ t

theorem indexedLeaves_congr {α : Type} {step : Nat → Step} {below : α → List Leaf} (g : α → α) :
    ∀ (index : Nat) (xs : List α), (∀ a ∈ xs, below (g a) = below a) →
      indexedLeaves step below index (xs.map g) = indexedLeaves step below index xs
  | _, [], _ => rfl
  | index, a :: rest, h => by
    rw [List.map_cons, indexedLeaves, indexedLeaves, h a List.mem_cons_self,
      indexedLeaves_congr g (index + 1) rest fun b hb => h b (List.mem_cons_of_mem _ hb)]

@[simp] theorem leaves_force (t : Tree) : t.force.leaves = t.leaves := by
  induction t using tree_induction with
  | seq s => rfl
  | map entries ih =>
    rw [force_map, leaves_map, leaves_map]
    exact indexedLeaves_congr _ 0 entries fun e he => ih e he

@[simp] theorem itemAt?_force (p : Path) (t : Tree) : t.force.itemAt? p = t.itemAt? p := by
  induction t using tree_induction generalizing p with
  | seq s => cases p with
    | nil => rfl
    | cons a p => cases a <;> rfl
  | map entries ih => cases p with
    | nil => rfl
    | cons a p =>
      cases a with
      | entry i =>
        rw [force_map, itemAt?_entry, itemAt?_entry, List.getElem?_map]
        cases hi : entries[i]? with
        | none => rfl
        | some e => exact ih e (List.mem_of_getElem? hi) p
      | item j => rfl
      | field name => rfl

theorem itemAt?_enter (p q : Path) (t : Tree) : (t.enter p).itemAt? q = t.itemAt? q := by
  unfold enter
  induction p, t using path_induction generalizing q with
  | entry i p entries key t he ih =>
    rw [changeItem_entry he]
    cases q with
    | nil => rfl
    | cons a q =>
      cases a with
      | entry j =>
        rw [itemAt?_entry, itemAt?_entry, getElem?_set_of_some he]
        split
        · rename_i hij
          subst hij
          rw [he]
          exact ih q
        · rfl
      | item j => rfl
      | field name => rfl
  | item j p s =>
    rw [changeItem_item, funext (Item.changeWithin_id p)]
    show (seq (.buffered (s.toList.modify j id))).itemAt? q = _
    rw [List.modify_id]
    exact itemAt?_force q (seq s)
  | stray p t hp hc => rw [hc]

theorem everywhere_force {r : Item → Bool} {l : List Value → Bool} {t : Tree} :
    t.force.Everywhere r l ↔ t.Everywhere r l := by
  induction t using tree_induction with
  | seq s => rw [force_seq, everywhere_seq, everywhere_seq, Seq.toList_force]
  | map entries ih =>
    rw [force_map, everywhere_map, everywhere_map]
    simp only [List.mem_map, forall_exists_index, and_imp, forall_apply_eq_imp_iff₂]
    exact ⟨fun h e he => (ih e he).1 (h e he), fun h e he => (ih e he).2 (h e he)⟩

/-! ## Paths into sequences -/

def Enters : Path → Tree → Prop
  | .entry i :: rest, map entries => ∃ e, entries[i]? = some e ∧ Enters rest e.2
  | .item _ :: _, seq _ => True
  | _, _ => False

theorem enters_entry {i : Nat} {p : Path} {entries : List (Key × Tree)} :
    Enters (.entry i :: p) (map entries) ↔ ∃ e, entries[i]? = some e ∧ Enters p e.2 := Iff.rfl

theorem enters_induction {motive : ∀ p t, Enters p t → Prop}
    (entry : ∀ i p entries e (he : entries[i]? = some e) (hp : Enters p e.2), motive p e.2 hp →
      motive (.entry i :: p) (map entries) ⟨e, he, hp⟩)
    (item : ∀ j p s, motive (.item j :: p) (seq s) trivial) : ∀ p t h, motive p t h
  | .entry i :: p, map entries, h => by
    obtain ⟨e, he, hp⟩ := h
    exact entry i p entries e he hp (enters_induction entry item p e.2 hp)
  | .item j :: p, seq s, _ => item j p s
  | [], _, h | .entry _ :: _, seq _, h | .item _ :: _, map _, h | .field _ :: _, _, h => by
    simp [Enters] at h

theorem enters_of_itemAt? {p : Path} {t : Tree} {item : Item} (h : t.itemAt? p = some item) :
    Enters p t := by
  induction p, t using path_induction with
  | entry i p entries key t he ih =>
    rw [itemAt?_entry, he, Option.bind_some] at h
    exact ⟨_, he, ih h⟩
  | item j p s => trivial
  | stray p t hp => rw [hp] at h; cases h

theorem Enters.append {p : Path} {t : Tree} (h : Enters p t) (r : Path) : Enters (p ++ r) t := by
  induction p, t, h using enters_induction with
  | entry i p entries e he hp ih => exact ⟨e, he, ih⟩
  | item j p s => trivial

theorem enters_of_mem_leaves {t : Tree} {leaf : Leaf} (h : leaf ∈ t.leaves) :
    Enters leaf.path t := by
  induction t using tree_induction generalizing leaf with
  | seq s =>
    rw [leaves_seq] at h
    obtain ⟨k, item, l', -, -, rfl⟩ := mem_indexedLeaves.1 h
    trivial
  | map entries ih =>
    rw [leaves_map] at h
    obtain ⟨k, e, l', hk, hl', rfl⟩ := mem_indexedLeaves.1 h
    rw [Nat.zero_add]
    exact ⟨e, hk, ih e (List.mem_of_getElem? hk) hl'⟩

theorem Enters.shift? {p p' r : Path} {t : Tree} (h : Enters p t)
    (hs : Path.shift? r p = some p') : Enters p' t := by
  induction p, t, h using enters_induction generalizing p' r with
  | entry i p entries e he hp ih =>
    cases r with
    | nil => simp at hs
    | cons g r =>
      by_cases hr : r = []
      · subst hr
        rw [Path.shift?_singleton] at hs
        split at hs
        · cases hs
        · cases hs
          cases g <;> exact ⟨e, he, hp⟩
      · rw [Path.shift?_cons_cons g _ hr] at hs
        split at hs
        · obtain ⟨q, hq, rfl⟩ := Option.map_eq_some_iff.1 hs
          exact ⟨e, he, ih hq⟩
        · cases hs
          exact ⟨e, he, hp⟩
  | item j p s =>
    cases r with
    | nil => simp at hs
    | cons g r =>
      by_cases hr : r = []
      · subst hr
        rw [Path.shift?_singleton] at hs
        split at hs
        · cases hs
        · cases hs
          cases g with
          | item k =>
            simp only [Step.moveUp]
            split <;> trivial
          | _ => trivial
      · rw [Path.shift?_cons_cons g _ hr] at hs
        split at hs
        · obtain ⟨q, hq, rfl⟩ := Option.map_eq_some_iff.1 hs
          trivial
        · cases hs
          trivial

theorem eq_of_enters_seq {s : Seq Item} : ∀ {p : Path}, Enters p (seq s) →
    ∃ j rest, p = .item j :: rest
  | .item j :: rest, _ => ⟨j, rest, rfl⟩
  | [], h | .entry _ :: _, h | .field _ :: _, h => by cases h

theorem eq_of_enters_anon {s : Seq Item} : ∀ {p : Path}, Enters p (anon s) →
    ∃ j rest, p = .entry 0 :: .item j :: rest
  | [], h | .item _ :: _, h | .field _ :: _, h => by cases h
  | .entry 0 :: p, h => by
    obtain ⟨e, he, h⟩ := h
    cases he
    obtain ⟨j, rest, rfl⟩ := eq_of_enters_seq h
    exact ⟨j, rest, rfl⟩
  | .entry (i + 1) :: p, h => by
    obtain ⟨e, he, h⟩ := h
    cases he

theorem enters_skeleton {p : Path} {t : Tree} : Enters p t.skeleton ↔ Enters p t := by
  induction t using tree_induction generalizing p with
  | seq s => cases p with
    | nil => rfl
    | cons a p => cases a <;> rfl
  | map entries ih =>
    rw [skeleton_map]
    cases p with
    | nil => rfl
    | cons a p =>
      cases a with
      | entry i =>
        rw [enters_entry, enters_entry, List.getElem?_map]
        cases hi : entries[i]? with
        | none => simp
        | some e => simpa using ih e (List.mem_of_getElem? hi)
      | item j => rfl
      | field name => rfl

theorem enters_congr {p : Path} {t u : Tree} (h : t.skeleton = u.skeleton) :
    Enters p t ↔ Enters p u := by
  rw [← enters_skeleton, h, enters_skeleton]

/-! ## The anonymous sequence -/

theorem leaves_anon (s : Seq Item) :
    (anon s).leaves = (indexedLeaves .item Item.leaves 0 s.toList).map (Leaf.under (.entry 0)) := by
  rw [anon, leaves_map, indexedLeaves, indexedLeaves, List.append_nil]
  show List.map _ (seq s).leaves = _
  rw [leaves_seq]

section

variable {done todo : List Item} {x : Item}

theorem modify_middle (f : Item → Item) :
    (done ++ x :: todo).modify done.length f = done ++ f x :: todo := by
  induction done with
  | nil => rfl
  | cons d done ih => rw [List.cons_append, List.length_cons, List.modify_succ_cons, ih]; rfl

theorem itemAt?_middle (p : Path) :
    (ofItems (done ++ x :: todo)).itemAt? (.entry 0 :: .item done.length :: p) = x.within? p := by
  show (done ++ x :: todo)[done.length]?.bind (Item.within? p) = _
  rw [List.getElem?_append_right (Nat.le_refl _), Nat.sub_self]
  rfl

theorem changeItem_middle (f : Item → Item) (p : Path) :
    (ofItems (done ++ x :: todo)).changeItem f (.entry 0 :: .item done.length :: p) =
      ofItems (done ++ x.changeWithin f p :: todo) := by
  show ofItems ((done ++ x :: todo).modify done.length (Item.changeWithin f p)) = _
  rw [modify_middle]

end

/-! ## Subtrees -/

theorem subtree?_entry (i : Nat) (p : Path) (entries : List (Key × Tree)) :
    subtree? (.entry i :: p) (map entries) = entries[i]?.bind fun e => subtree? p e.2 := rfl

theorem changeSubtree_entry {i : Nat} {entries : List (Key × Tree)} {key : Key} {t : Tree}
    (h : entries[i]? = some (key, t)) (f : Tree → Tree) (p : Path) :
    changeSubtree f (.entry i :: p) (map entries) =
      map (entries.set i (key, changeSubtree f p t)) := by
  simp only [changeSubtree, h]

theorem subtree_induction {motive : Path → Tree → Prop} (nil : ∀ t, motive [] t)
    (entry : ∀ i p entries key t, entries[i]? = some (key, t) → motive p t →
      motive (.entry i :: p) (map entries))
    (stray : ∀ p t, subtree? p t = none → (∀ f, changeSubtree f p t = t) → motive p t) :
    ∀ p t, motive p t
  | [], t => nil t
  | .entry i :: p, map entries => by
    cases h : entries[i]? with
    | none =>
      refine stray _ _ (by rw [subtree?_entry, h]; rfl) fun f => ?_
      simp only [changeSubtree, h]
    | some e => exact entry i p entries e.1 e.2 h (subtree_induction nil entry stray p e.2)
  | .entry _ :: _, seq _ | .item _ :: _, _ | .field _ :: _, _ => stray _ _ rfl (fun _ => rfl)

variable {f : Tree → Tree} {p q : Path} {t t₀ : Tree}

theorem itemAt?_subtree? (h : t.subtree? p = some t₀) : t.itemAt? (p ++ q) = t₀.itemAt? q := by
  induction p, t using subtree_induction with
  | nil t => cases h; cases t <;> rfl
  | entry i p entries key t he ih =>
    rw [subtree?_entry, he] at h
    rw [List.cons_append, itemAt?_entry, he]
    exact ih h
  | stray p t hp => rw [hp] at h; cases h

theorem subtree?_of_itemAt? {item : Item} (h : t.itemAt? p = some item) :
    t.subtree? (p ++ q) = none := by
  induction p, t using path_induction with
  | entry i p entries key t he ih =>
    rw [itemAt?_entry, he] at h
    rw [List.cons_append, subtree?_entry, he]
    exact ih h
  | item j p s => rfl
  | stray p t hp => rw [hp] at h; cases h

theorem enters_subtree? (h : t.subtree? p = some t₀) : Enters (p ++ q) t ↔ Enters q t₀ := by
  induction p, t using subtree_induction with
  | nil t => cases h; cases t <;> rfl
  | entry i p entries key t he ih =>
    rw [subtree?_entry, he] at h
    rw [List.cons_append, enters_entry, he, ← ih h]
    simp
  | stray p t hp => rw [hp] at h; cases h

theorem subtree?_changeSubtree : (t.changeSubtree f p).subtree? p = (t.subtree? p).map f := by
  induction p, t using subtree_induction with
  | nil t => cases t <;> simp [changeSubtree, subtree?]
  | entry i p entries key t he ih =>
    rw [changeSubtree_entry he, subtree?_entry, subtree?_entry, getElem?_set_of_some he, if_pos rfl,
      he]
    exact ih
  | stray p t hp hc => rw [hc, hp]; rfl

theorem isMapping_changeSubtree (h : t.IsMapping) (hp : p ≠ []) :
    (t.changeSubtree f p).IsMapping := by
  induction p, t using subtree_induction with
  | nil t => exact absurd rfl hp
  | entry i p entries key t he ih => exact ⟨_, changeSubtree_entry he f p⟩
  | stray p t _ hc => rwa [hc]

theorem itemAt?_changeSubtree_below (h : t.subtree? p = some t₀) :
    (t.changeSubtree f p).itemAt? (p ++ q) = (f t₀).itemAt? q :=
  itemAt?_subtree? (by rw [subtree?_changeSubtree, h]; rfl)

theorem itemAt?_changeSubtree_apart (h : p.Apart q) :
    (t.changeSubtree f p).itemAt? q = t.itemAt? q := by
  induction p, t using subtree_induction generalizing q with
  | nil t => exact absurd h (Path.not_apart_nil q)
  | stray p t hp hc => rw [hc]
  | entry i p entries key t he ih =>
    rw [changeSubtree_entry he]
    exact itemAt?_set_apart he ih h

theorem subtree?_changeSubtree_apart (h : p.Apart q) :
    (t.changeSubtree f p).subtree? q = t.subtree? q := by
  induction p, t using subtree_induction generalizing q with
  | nil t => exact absurd h (Path.not_apart_nil q)
  | stray p t hp hc => rw [hc]
  | entry i p entries key t he ih =>
    rw [changeSubtree_entry he]
    cases q with
    | nil => exact absurd h.symm (Path.not_apart_nil _)
    | cons a q =>
      cases a with
      | entry j =>
        rw [subtree?_entry, subtree?_entry, getElem?_set_of_some he]
        split
        · rename_i hij
          subst hij
          rw [he]
          exact ih (Path.apart_cons_self.1 h)
        · rfl
      | item j => rfl
      | field name => rfl

theorem everywhere_changeSubtree {r : Item → Bool} {l : List Value → Bool} (h : t.Everywhere r l)
    (hf : ∀ t₀, t.subtree? p = some t₀ → t₀.Everywhere r l → (f t₀).Everywhere r l) :
    (t.changeSubtree f p).Everywhere r l := by
  induction p, t using subtree_induction with
  | nil t => cases t <;> exact hf _ rfl h
  | stray p t hp hc => rw [hc]; exact h
  | entry i p entries key t he ih =>
    rw [changeSubtree_entry he, everywhere_map]
    rw [everywhere_map] at h
    intro e hm
    rcases List.mem_or_eq_of_mem_set hm with hm | rfl
    · exact h e hm
    · refine ih (h _ (List.mem_of_getElem? he)) fun t₀ ht => hf t₀ ?_
      rw [subtree?_entry, he]
      exact ht

/-! ## The paths of sequences -/

theorem seqAt?_eq_some {s : Seq Item} : t.seqAt? p = some s ↔ t.subtree? p = some (seq s) := by
  unfold seqAt?
  split
  · rename_i s' hs
    rw [hs]
    simp
  · rename_i hs
    constructor
    · intro h
      cases h
    · intro h
      exact absurd h (hs s)

theorem mem_seqPathsOfEntries : ∀ {index : Nat} {entries : List (Key × Tree)},
    p ∈ seqPathsOfEntries index entries ↔
      ∃ (k : Nat) (e : Key × Tree) (p' : Path), entries[k]? = some e ∧ p' ∈ e.2.seqPaths ∧
        p = .entry (index + k) :: p'
  | index, [] => by simp [seqPathsOfEntries]
  | index, e :: rest => by
    rw [seqPathsOfEntries, List.mem_append, mem_seqPathsOfEntries, List.mem_map]
    constructor
    · rintro (⟨p', hp', rfl⟩ | ⟨k, b, p', hk, hp', rfl⟩)
      · exact ⟨0, e, p', rfl, hp', rfl⟩
      · exact ⟨k + 1, b, p', hk, hp', by rw [Nat.add_right_comm, Nat.add_assoc]⟩
    · rintro ⟨k, b, p', hk, hp', rfl⟩
      cases k with
      | zero =>
        cases hk
        exact .inl ⟨p', hp', rfl⟩
      | succ k => exact .inr ⟨k, b, p', hk, hp', by rw [Nat.add_right_comm, Nat.add_assoc]⟩

theorem seqAt?_of_mem_seqPaths (h : p ∈ t.seqPaths) : ∃ s ∈ t.seqs, t.seqAt? p = some s := by
  induction t using tree_induction generalizing p with
  | seq s =>
    rw [seqPaths, List.mem_singleton] at h
    subst h
    exact ⟨s, by simp [seqs], rfl⟩
  | map entries ih =>
    rw [seqPaths] at h
    obtain ⟨k, e, p', hk, hp', rfl⟩ := mem_seqPathsOfEntries.1 h
    have he := List.mem_of_getElem? hk
    obtain ⟨s, hs, hp'⟩ := ih e he hp'
    refine ⟨s, by rw [seqs, mem_seqsOfEntries]; exact ⟨e, he, hs⟩, ?_⟩
    rw [seqAt?_eq_some] at hp' ⊢
    rw [Nat.zero_add, subtree?_entry, hk]
    exact hp'

theorem pairwise_apart_seqPathsOfEntries : ∀ (index : Nat) (entries : List (Key × Tree)),
    (∀ e ∈ entries, e.2.seqPaths.Pairwise Path.Apart) →
      (seqPathsOfEntries index entries).Pairwise Path.Apart
  | _, [], _ => .nil
  | index, e :: rest, h => by
    rw [seqPathsOfEntries, List.pairwise_append]
    refine ⟨List.pairwise_map.2 ((h e List.mem_cons_self).imp fun ha =>
        Path.apart_cons.2 (.inr ha)),
      pairwise_apart_seqPathsOfEntries (index + 1) rest
        fun b hb => h b (List.mem_cons_of_mem _ hb), fun x hx y hy => ?_⟩
    obtain ⟨x', -, rfl⟩ := List.mem_map.1 hx
    obtain ⟨k, _, y', -, -, rfl⟩ := mem_seqPathsOfEntries.1 hy
    exact Path.apart_cons.2 (.inl fun he => by injection he; omega)

theorem pairwise_apart_seqPaths (t : Tree) : t.seqPaths.Pairwise Path.Apart := by
  induction t using tree_induction with
  | seq s => exact List.pairwise_singleton _ _
  | map entries ih =>
    rw [seqPaths]
    exact pairwise_apart_seqPathsOfEntries 0 entries ih

end Tree

end GraphQuery
