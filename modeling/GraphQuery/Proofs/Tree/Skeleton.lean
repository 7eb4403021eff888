import GraphQuery.Proofs.Tree.Leaves
/-!
# Skeletons

The skeleton of a tree is what is left of it without its items: keys and where the sequences are.
Rewriting sequences and changing or removing items keep the skeleton, and so everything that
depends on it alone.
-/

namespace GraphQuery

namespace Tree

/-! ## Rewriting every sequence -/

theorem traverseEntries_unit (f : Seq Item → Seq Item) : ∀ entries : List (Key × Tree),
    (traverseEntries (fun s (_ : Unit) => (f s, ())) entries ()).1 =
      entries.map fun e => (e.1, e.2.mapSeqs f)
  | [] => rfl
  | (key, t) :: rest => by
    rw [List.map_cons, ← traverseEntries_unit f rest]
    rfl

theorem mapSeqs_map (f : Seq Item → Seq Item) (entries : List (Key × Tree)) :
    (map entries).mapSeqs f = map (entries.map fun e => (e.1, e.2.mapSeqs f)) :=
  congrArg map (traverseEntries_unit f entries)

theorem mapSeqs_mapSeqs (f g : Seq Item → Seq Item) (t : Tree) :
    (t.mapSeqs f).mapSeqs g = t.mapSeqs (g ∘ f) := by
  induction t using tree_induction with
  | seq s => rfl
  | map entries ih =>
    rw [mapSeqs_map, mapSeqs_map, mapSeqs_map, List.map_map]
    exact congrArg map (List.map_congr_left fun e he => Prod.ext rfl (ih e he))

def traverseAll {σ : Type} (f : Seq Item → σ → Seq Item × σ) :
    List (Seq Item) → σ → List (Seq Item) × σ
  | [], st => ([], st)
  | s :: rest, st =>
    let after := traverseAll f rest (f s st).2
    ((f s st).1 :: after.1, after.2)

theorem traverseAll_append {σ : Type} (f : Seq Item → σ → Seq Item × σ) :
    ∀ (xs ys : List (Seq Item)) (st : σ), traverseAll f (xs ++ ys) st =
      ((traverseAll f xs st).1 ++ (traverseAll f ys (traverseAll f xs st).2).1,
        (traverseAll f ys (traverseAll f xs st).2).2)
  | [], _, _ => rfl
  | s :: xs, ys, st => by
    rw [List.cons_append, traverseAll, traverseAll_append f xs ys]
    rfl

mutual

/-- **Rewriting a tree rewrites its sequences one after another.** -/
theorem traverse_seqs {σ : Type} (f : Seq Item → σ → Seq Item × σ) : ∀ (t : Tree) (st : σ),
    traverseAll f t.seqs st = ((t.traverse f st).1.seqs, (t.traverse f st).2)
  | seq _, _ => rfl
  | map entries, st => traverseEntries_seqs f entries st

theorem traverseEntries_seqs {σ : Type} (f : Seq Item → σ → Seq Item × σ) :
    ∀ (entries : List (Key × Tree)) (st : σ), traverseAll f (seqsOfEntries entries) st =
      (seqsOfEntries (traverseEntries f entries st).1, (traverseEntries f entries st).2)
  | [], _ => rfl
  | (_, t) :: rest, st => by
    rw [seqsOfEntries, traverseAll_append, traverse_seqs f t, traverseEntries_seqs f rest]
    rfl

end

/-! ## Skeletons -/

def skeleton (t : Tree) : Tree := t.mapSeqs fun _ => .buffered []

theorem skeleton_map (entries : List (Key × Tree)) :
    (map entries).skeleton = map (entries.map fun e => (e.1, e.2.skeleton)) := mapSeqs_map _ entries

theorem skeleton_mapSeqs (f : Seq Item → Seq Item) (t : Tree) :
    (t.mapSeqs f).skeleton = t.skeleton := mapSeqs_mapSeqs f _ t

theorem skeleton_force (t : Tree) : t.force.skeleton = t.skeleton := skeleton_mapSeqs _ t

mutual

theorem skeleton_traverse {σ : Type} (f : Seq Item → σ → Seq Item × σ) :
    ∀ (t : Tree) (st : σ), (t.traverse f st).1.skeleton = t.skeleton
  | seq _, _ => rfl
  | map entries, st => by
    rw [skeleton_map, ← skeleton_traverseEntries f entries st]
    exact skeleton_map _

theorem skeleton_traverseEntries {σ : Type} (f : Seq Item → σ → Seq Item × σ) :
    ∀ (entries : List (Key × Tree)) (st : σ),
      (traverseEntries f entries st).1.map (fun e => (e.1, e.2.skeleton)) =
        entries.map fun e => (e.1, e.2.skeleton)
  | [], _ => rfl
  | (key, t) :: rest, st => by
    rw [List.map_cons, ← skeleton_traverse f t st,
      ← skeleton_traverseEntries f rest (t.traverse f st).2]
    rfl

end

theorem skeleton_set {i : Nat} {entries : List (Key × Tree)} {key : Key} {t u : Tree}
    (h : entries[i]? = some (key, t)) (hu : u.skeleton = t.skeleton) :
    (map (entries.set i (key, u))).skeleton = (map entries).skeleton := by
  rw [skeleton_map, skeleton_map, List.map_set]
  congr 1
  apply List.ext_getElem?
  intro j
  rw [List.getElem?_set, List.getElem?_map]
  split
  · rename_i hj
    subst hj
    have hlt : i < entries.length := (List.getElem?_eq_some_iff.1 h).1
    rw [h, if_pos (by rwa [List.length_map])]
    simp [hu]
  · rfl

/-- **Changing an item keeps the skeleton.** -/
theorem skeleton_changeItem (f : Item → Item) (p : Path) (t : Tree) :
    (t.changeItem f p).skeleton = t.skeleton := by
  induction p, t using path_induction with
  | entry i p entries key t he ih =>
    rw [changeItem_entry he]
    exact skeleton_set he ih
  | item j p s => rfl
  | stray p t hp hc => rw [hc]

/-! ## What a skeleton decides -/

def IsMapping (t : Tree) : Prop := ∃ entries, t = map entries

variable {t u : Tree}

theorem IsMapping.of_skeleton (h : t.IsMapping) (hu : u.skeleton = t.skeleton) : u.IsMapping := by
  obtain ⟨entries, rfl⟩ := h
  cases u with
  | seq s => rw [skeleton_map] at hu; cases hu
  | map others => exact ⟨others, rfl⟩

theorem isMapping_anon (s : Seq Item) : (anon s).IsMapping := ⟨_, rfl⟩

theorem eq_anon_of_skeleton {s : Seq Item} (h : u.skeleton = (anon s).skeleton) :
    ∃ s', u = anon s' := by
  cases u with
  | seq s => rw [anon, skeleton_map] at h; cases h
  | map entries =>
    rw [anon, skeleton_map, skeleton_map] at h
    cases entries with
    | nil => cases h
    | cons e rest =>
      obtain ⟨key, v⟩ := e
      cases rest with
      | cons e' rest => simp at h
      | nil =>
        cases v with
        | seq s' =>
          refine ⟨s', ?_⟩
          simp only [List.map_cons, List.map_nil, map.injEq, List.cons.injEq, Prod.mk.injEq] at h
          rw [anon, h.1.1]
        | map others =>
          simp only [List.map_cons, List.map_nil, map.injEq, List.cons.injEq, Prod.mk.injEq,
            skeleton_map] at h
          cases h.1.2

theorem single?_eq_some {s : Seq Item} : t.single? = some s ↔ t = seq s ∨ t = anon s := by
  constructor
  · intro h
    unfold single? at h
    split at h
    · cases h
      exact .inl rfl
    · cases h
      exact .inr rfl
    · cases h
  · rintro (rfl | rfl) <;> rfl

theorem IsMapping.eq_anon {s : Seq Item} (h : t.IsMapping) (hs : t.single? = some s) :
    t = anon s := by
  rcases single?_eq_some.1 hs with ht | ht
  · obtain ⟨entries, he⟩ := h
    rw [he] at ht
    cases ht
  · exact ht

end Tree

end GraphQuery
