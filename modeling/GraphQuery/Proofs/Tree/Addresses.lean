import GraphQuery.Proofs.Tree.Removal
import GraphQuery.Proofs.Tree.Substitution
/-!
# Addresses

A tree hands out addresses of two kinds.  Walking it gives the path of every leaf, and each leads
back to its leaf while walking changes no item (`Tree.leaves_addressed`).  The paths of its
sequences come in the order of the sequences, lead to nothing else, and stay good while other trees
are put at some of them (`Tree.seqPaths_address`).
-/

namespace GraphQuery

namespace Tree

variable {t : Tree}

/-! ## Leaves -/

/--
**Walked addresses resolve.**  Where field names are distinct at every depth and no identifier is a
list with an identified record, every leaf is found at its path in the tree that was walked, no path
begins with another one, and walking only buffers: the mappings and the items stay the same, and so
does what any path leads to.
-/
theorem leaves_addressed (t : Tree) (h : t.Everywhere Item.isAddressable fun _ => true) :
    (∀ leaf ∈ t.leaves, t.force.itemAt? leaf.path = some leaf.item) ∧
      (t.leaves.map Leaf.path).Pairwise Path.Apart ∧
      t.force.skeleton = t.skeleton ∧ t.force.seqs.map Seq.toList = t.seqs.map Seq.toList ∧
      ∀ p, t.force.itemAt? p = t.itemAt? p := by
  refine ⟨fun leaf hm => ?_, List.pairwise_map.2 (pairwise_apart_leaves h), skeleton_force t, ?_,
    fun p => itemAt?_force p t⟩
  · rw [itemAt?_force]
    exact itemAt?_of_mem_leaves h hm
  · rw [force, seqs_mapSeqs, List.map_map]
    exact List.map_congr_left fun s _ => Seq.toList_force s

/-- One of two people has friends, with a number between them, and is no leaf for that. -/
theorem leaves_addressed_friends :
    let bob : Item := ⟨[(":id", .int 2)]⟩
    let carl : Item := ⟨[("age", .int 30)]⟩
    let dora : Item := ⟨[(":id", .int 4)]⟩
    let ann : Item := ⟨[(":id", .int 1), ("friend", .list [.record bob, .int 7, .record carl])]⟩
    let t : Tree := map [(.name "people", seq (.buffered [ann, dora]))]
    t.Everywhere Item.isAddressable (fun _ => true) ∧
      t.leaves = [⟨[.entry 0, .item 0, .field "friend", .item 0], bob⟩,
        ⟨[.entry 0, .item 0, .field "friend", .item 2], carl⟩, ⟨[.entry 0, .item 1], dora⟩] ∧
      ∀ leaf ∈ t.leaves, t.force.itemAt? leaf.path = some leaf.item := by
  intro bob carl dora ann t
  have h : t.Everywhere Item.isAddressable fun _ => true := by
    unfold Everywhere
    decide
  exact ⟨h, rfl, (leaves_addressed t h).1⟩

/-! ## Sequences -/

theorem seqPathsOfEntries_skeleton : ∀ (index : Nat) (entries : List (Key × Tree)),
    (∀ e ∈ entries, e.2.skeleton.seqPaths = e.2.seqPaths) →
      seqPathsOfEntries index (entries.map fun e => (e.1, e.2.skeleton)) =
        seqPathsOfEntries index entries
  | _, [], _ => rfl
  | index, e :: rest, h => by
    rw [List.map_cons, seqPathsOfEntries, seqPathsOfEntries, h e List.mem_cons_self,
      seqPathsOfEntries_skeleton (index + 1) rest fun e' he' => h e' (List.mem_cons_of_mem _ he')]

theorem seqPaths_skeleton (t : Tree) : t.skeleton.seqPaths = t.seqPaths := by
  induction t using tree_induction with
  | seq s => rfl
  | map entries ih =>
    rw [skeleton_map, seqPaths, seqPaths, seqPathsOfEntries_skeleton 0 entries ih]

theorem map_subtree?_seqPathsOfEntries : ∀ (todo done : List (Key × Tree)),
    (∀ e ∈ todo, e.2.seqPaths.map (fun p => e.2.subtree? p) = e.2.seqs.map fun s => some (seq s)) →
      (seqPathsOfEntries done.length todo).map (fun p => (map (done ++ todo)).subtree? p) =
        (seqsOfEntries todo).map fun s => some (seq s)
  | [], _, _ => rfl
  | e :: rest, done, h => by
    have hrest := map_subtree?_seqPathsOfEntries rest (done ++ [e])
      fun e' he' => h e' (List.mem_cons_of_mem _ he')
    have hhead : ∀ p, (map (done ++ e :: rest)).subtree? (.entry done.length :: p) =
        e.2.subtree? p := fun p => by
      rw [subtree?_entry, List.getElem?_append_right (Nat.le_refl _), Nat.sub_self]
      rfl
    rw [List.length_append, List.length_singleton, List.append_assoc, List.singleton_append]
      at hrest
    rw [seqPathsOfEntries, seqsOfEntries, List.map_append, List.map_append, hrest,
      ← h e List.mem_cons_self, List.map_map]
    exact congrArg (· ++ _) (List.map_congr_left fun p _ => hhead p)

/-- **The paths of the sequences lead to them, in order.** -/
theorem map_subtree?_seqPaths (t : Tree) :
    t.seqPaths.map (fun p => t.subtree? p) = t.seqs.map fun s => some (seq s) := by
  induction t using tree_induction with
  | seq s => rfl
  | map entries ih =>
    rw [seqPaths, seqs]
    exact map_subtree?_seqPathsOfEntries entries [] ih

theorem seqAt?_of_getElem? {i : Nat} {p : Path} (h : t.seqPaths[i]? = some p) :
    t.seqAt? p = t.seqs[i]? := by
  have hi := congrArg (·[i]?) (map_subtree?_seqPaths t)
  simp only [List.getElem?_map, h, Option.map_some] at hi
  cases hs : t.seqs[i]? with
  | none => simp [hs] at hi
  | some s => exact seqAt?_eq_some.2 (by simpa [hs] using hi)

/-- **Wherever a sequence is found, its path is among those of the sequences.** -/
theorem mem_seqPaths_of_seqAt? {p : Path} {s : Seq Item} (h : t.seqAt? p = some s) :
    p ∈ t.seqPaths := by
  rw [seqAt?_eq_some] at h
  induction t using tree_induction generalizing p with
  | seq s' => cases p with
    | nil => exact List.mem_singleton.2 rfl
    | cons a p => cases a <;> cases h
  | map entries ih => cases p with
    | nil => cases h
    | cons a p =>
      cases a with
      | entry i =>
        rw [subtree?_entry] at h
        obtain ⟨e, he, h⟩ := Option.bind_eq_some_iff.1 h
        rw [seqPaths, mem_seqPathsOfEntries]
        exact ⟨i, e, p, he, ih e (List.mem_of_getElem? he) h, by rw [Nat.zero_add]⟩
      | item j => cases h
      | field name => cases h

theorem eq_or_apart_of_mem_seqPaths {p q : Path} (hp : p ∈ t.seqPaths) (hq : q ∈ t.seqPaths) :
    p = q ∨ p.Apart q := Path.eq_or_apart_of_mem (pairwise_apart_seqPaths t) hq p hp

theorem nodup_seqPaths (t : Tree) : t.seqPaths.Nodup :=
  (pairwise_apart_seqPaths t).imp fun h => h.ne

theorem seqAt?_changeSeq {p : Path} (f : Seq Item → Seq Item) :
    (t.changeSeq f p).seqAt? p = (t.seqAt? p).map f := by
  rw [changeSeq, seqAt?, subtree?_changeSubtree, seqAt?]
  cases t.subtree? p with
  | none => rfl
  | some u => cases u <;> rfl

/-- **Rewriting the sequence at the path of the `i`-th one rewrites the `i`-th one.** -/
theorem seqs_changeSeq {i : Nat} {p : Path} (h : t.seqPaths[i]? = some p)
    (f : Seq Item → Seq Item) : (t.changeSeq f p).seqs = t.seqs.modify i f := by
  have hpaths : (t.changeSeq f p).seqPaths = t.seqPaths := by
    rw [← seqPaths_skeleton, skeleton_changeSeq, seqPaths_skeleton]
  -- at each position the same path leads to a sequence before and after
  apply List.ext_getElem?
  intro j
  by_cases hij : i = j
  · subst hij
    rw [List.getElem?_modify_eq, ← seqAt?_of_getElem? (hpaths ▸ h), ← seqAt?_of_getElem? h]
    exact seqAt?_changeSeq f
  · rw [List.getElem?_modify_ne f _ hij]
    cases hj : t.seqPaths[j]? with
    | none =>
      rw [List.getElem?_eq_none_iff, length_seqPaths] at hj
      rw [List.getElem?_eq_none_iff.2 hj, List.getElem?_eq_none_iff, ← length_seqPaths, hpaths,
        length_seqPaths]
      exact hj
    | some q =>
      have hpq : p ≠ q := fun he => hij <| (List.getElem?_inj
        (List.getElem?_eq_some_iff.1 h).1 (nodup_seqPaths t)).1 (by rw [h, hj, he])
      have ha := (eq_or_apart_of_mem_seqPaths (List.mem_of_getElem? h)
        (List.mem_of_getElem? hj)).resolve_left hpq
      rw [← seqAt?_of_getElem? (hpaths ▸ hj), ← seqAt?_of_getElem? hj, changeSeq, seqAt?,
        subtree?_changeSubtree_apart ha, seqAt?]

/--
**After trees were put at the paths of some sequences**, each of these paths leads to the tree that
was put there, and every other one to its sequence.
-/
theorem subtree?_putTrees {g : Path → Tree} {q : Path} (hq : q ∈ t.seqPaths) {paths : List Path}
    (h : ∀ p ∈ paths, p ∈ t.seqPaths) :
    (t.putTrees g paths).subtree? q = if q ∈ paths then some (g q) else t.subtree? q := by
  -- the last tree that is put decides
  induction paths using List.reverseRecOn with
  | nil => rfl
  | append_singleton paths p ih =>
    have hp : p ∈ t.seqPaths := h p (by simp)
    have ih := ih fun p' hp' => h p' (List.mem_append_left _ hp')
    rw [putTrees_append]
    show ((t.putTrees g paths).changeSubtree (fun _ => g p) p).subtree? q = _
    rcases eq_or_apart_of_mem_seqPaths hp hq with rfl | ha
    · obtain ⟨s, -, hs⟩ := seqAt?_of_mem_seqPaths hp
      rw [subtree?_changeSubtree, ih, seqAt?_eq_some.1 hs, if_pos (List.mem_concat_self)]
      split <;> rfl
    · rw [subtree?_changeSubtree_apart ha, ih]
      simp [ha.ne.symm]

/--
**The paths of sequences address exactly the sequences.**  No one begins with another; the `i`-th
leads to the `i`-th sequence, for reading and for writing; wherever a sequence is found, its path is
among them; and trees put at some of them, one after another, leave what the others lead to.
-/
theorem seqPaths_address (t : Tree) :
    t.seqPaths.Pairwise Path.Apart ∧
      (t.seqPaths.map fun p => t.subtree? p) = (t.seqs.map fun s => some (seq s)) ∧
      (∀ i p f, t.seqPaths[i]? = some p → (t.changeSeq f p).seqs = t.seqs.modify i f) ∧
      (∀ p s, t.subtree? p = some (seq s) → p ∈ t.seqPaths) ∧
      (∀ p q u, p ∈ t.seqPaths → q ∈ t.seqPaths → q ≠ p →
        (t.changeSubtree (fun _ => u) p).subtree? q = t.subtree? q) ∧
      ∀ (g : Path → Tree) (paths : List Path), (∀ p ∈ paths, p ∈ t.seqPaths) →
        ∀ q ∈ t.seqPaths,
          (t.putTrees g paths).subtree? q = if q ∈ paths then some (g q) else t.subtree? q := by
  refine ⟨pairwise_apart_seqPaths t, map_subtree?_seqPaths t, fun i p f h => seqs_changeSeq h f,
    fun p s h => mem_seqPaths_of_seqAt? (seqAt?_eq_some.2 h), fun p q u hp hq hne => ?_,
    fun g paths h q hq => subtree?_putTrees hq h⟩
  exact subtree?_changeSubtree_apart
    ((eq_or_apart_of_mem_seqPaths hp hq).resolve_left (Ne.symm hne))

/-- A sequence beside a mapping of a sequence and an empty mapping. -/
theorem seqPaths_address_nested :
    let s : Seq Item := .buffered [.ofId (.int 1)]
    let t : Tree := map [(.name "a", seq s), (.name "b", map [(.name "c", seq s), (.anon, empty)])]
    t.seqPaths = [[.entry 0], [.entry 1, .entry 0]] ∧
      (t.putTrees (fun _ => empty) [[.entry 0]]).subtree? [.entry 1, .entry 0] = some (seq s) := by
  intro s t
  have hp : t.seqPaths = [[.entry 0], [.entry 1, .entry 0]] := rfl
  have hput := (seqPaths_address t).2.2.2.2.2 (fun _ => empty) [[.entry 0]] (by simp [hp])
    [.entry 1, .entry 0] (by simp [hp])
  exact ⟨hp, hput.trans rfl⟩

end Tree

end GraphQuery
