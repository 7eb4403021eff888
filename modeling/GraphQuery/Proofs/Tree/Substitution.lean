import GraphQuery.Proofs.Tree.Sequences
/-!
# Trees in the places of sequences

A tree can be put in the place of every sequence of another one, all at once (`Tree.substitute`), or
one after another, each at the path of its sequence (`Tree.putTrees`).  Both come to the same
(`Tree.putTrees_seqPaths`).
-/

namespace GraphQuery

namespace Tree

mutual

def substitute (f : Seq Item → Tree) : Tree → Tree
  | seq s => f s
  | map entries => map (substituteEntries f entries)
termination_by structural t => t

def substituteEntries (f : Seq Item → Tree) : List (Key × Tree) → List (Key × Tree)
  | [] => []
  | (key, t) :: rest => (key, t.substitute f) :: substituteEntries f rest
termination_by structural entries => entries

end

variable {f : Seq Item → Tree} {g : Path → Tree}

theorem substitute_map (f : Seq Item → Tree) (entries : List (Key × Tree)) :
    (map entries).substitute f = map (entries.map fun e => (e.1, e.2.substitute f)) := by
  have go : ∀ entries : List (Key × Tree),
      substituteEntries f entries = entries.map fun e => (e.1, e.2.substitute f) := by
    intro entries
    induction entries with
    | nil => rfl
    | cons e rest ih => rw [substituteEntries, ih, List.map_cons]
  rw [substitute, go]

def putTrees (g : Path → Tree) (paths : List Path) (t : Tree) : Tree :=
  paths.foldl (fun t p => t.changeSubtree (fun _ => g p) p) t

theorem putTrees_append (g : Path → Tree) (ps qs : List Path) (t : Tree) :
    t.putTrees g (ps ++ qs) = (t.putTrees g ps).putTrees g qs := List.foldl_append

theorem putTrees_under {done todo : List (Key × Tree)} {key : Key} : ∀ (paths : List Path)
    (t : Tree), (map (done ++ (key, t) :: todo)).putTrees g (paths.map (.entry done.length :: ·)) =
      map (done ++ (key, t.putTrees (fun p => g (.entry done.length :: p)) paths) :: todo)
  | [], _ => rfl
  | p :: paths, t => by
    have he : (done ++ (key, t) :: todo)[done.length]? = some (key, t) := by simp
    have hs : ∀ u, (done ++ (key, t) :: todo).set done.length (key, u) =
        done ++ (key, u) :: todo := fun u => by simp
    rw [List.map_cons, putTrees, List.foldl_cons, ← putTrees, changeSubtree_entry he, hs,
      putTrees_under paths]
    rfl

theorem putTrees_seqPathsOfEntries : ∀ (todo done : List (Key × Tree)),
    (∀ (k : Nat) (e : Key × Tree), todo[k]? = some e →
      e.2.putTrees (fun p => g (.entry (done.length + k) :: p)) e.2.seqPaths = e.2.substitute f) →
    (map (done ++ todo)).putTrees g (seqPathsOfEntries done.length todo) =
      map (done ++ todo.map fun e => (e.1, e.2.substitute f))
  | [], _, _ => rfl
  | (key, t) :: rest, done, h => by
    have ht := h 0 (key, t) rfl
    have hrest := putTrees_seqPathsOfEntries rest (done ++ [(key, t.substitute f)])
      fun k e hk => by
        rw [List.length_append, List.length_singleton, Nat.add_assoc, Nat.add_comm 1]
        exact h (k + 1) e hk
    simp only [List.length_append, List.length_singleton, List.append_assoc,
      List.singleton_append] at hrest
    rw [seqPathsOfEntries, putTrees_append, putTrees_under, ← Nat.add_zero done.length, ht,
      Nat.add_zero, hrest, List.map_cons]

/-- **Putting trees at the paths of all sequences is putting them in their places at once.** -/
theorem putTrees_seqPaths {t : Tree} (h : ∀ p s, t.seqAt? p = some s → g p = f s) :
    t.putTrees g t.seqPaths = t.substitute f := by
  induction t using tree_induction generalizing g with
  | seq s => exact h [] s rfl
  | map entries ih =>
    rw [substitute_map]
    refine putTrees_seqPathsOfEntries entries [] fun k e hk => ?_
    refine ih e (List.mem_of_getElem? hk) fun p s hp => h _ s ?_
    rw [List.length_nil, Nat.zero_add, seqAt?, subtree?_entry, hk]
    exact hp

end Tree

end GraphQuery
