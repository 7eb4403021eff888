import GraphQuery.Flow.Seq
import GraphQuery.Tree.Path
import GraphQuery.Value.Basic
/-!
# Result trees

A result tree is a sequence of items, or a mapping from keys to trees.  Deeper levels of a result
live inside the items, as list fields that hold records.
-/

namespace GraphQuery

/-- A key of a mapping; the anonymous one marks what a literal makes. -/
inductive Key where
  | anon
  | name (text : String)
deriving DecidableEq

def Key.render (anonymous : String) : Key → String
  | anon => anonymous
  | name text => text

inductive Tree where
  | seq (items : Seq Item)
  | map (entries : List (Key × Tree))

namespace Tree

def empty : Tree := map []

instance : Inhabited Tree := ⟨empty⟩

def anon (s : Seq Item) : Tree := map [(.anon, seq s)]

def ofItems (items : List Item) : Tree := anon (.buffered items)

/-- The sequence of a tree that is nothing but one, at the root or under the anonymous key. -/
def single? : Tree → Option (Seq Item)
  | seq s => some s
  | map [(.anon, seq s)] => some s
  | _ => none

/-! ## All sequences of a tree -/

mutual

def seqs : Tree → List (Seq Item)
  | seq s => [s]
  | map entries => seqsOfEntries entries
termination_by structural t => t

def seqsOfEntries : List (Key × Tree) → List (Seq Item)
  | [] => []
  | (_, t) :: rest => t.seqs ++ seqsOfEntries rest
termination_by structural entries => entries

end

mutual

/-- The entry steps that lead to every sequence, in order. -/
def seqPaths : Tree → List Path
  | seq _ => [[]]
  | map entries => seqPathsOfEntries 0 entries
termination_by structural t => t

def seqPathsOfEntries (index : Nat) : List (Key × Tree) → List Path
  | [] => []
  | (_, t) :: rest => t.seqPaths.map (.entry index :: ·) ++ seqPathsOfEntries (index + 1) rest
termination_by structural entries => entries

end

mutual

theorem length_seqPaths (t : Tree) : t.seqPaths.length = t.seqs.length := by
  cases t with
  | seq s => rfl
  | map entries => simpa only [seqPaths, seqs] using length_seqPathsOfEntries 0 entries

theorem length_seqPathsOfEntries (index : Nat) (entries : List (Key × Tree)) :
    (seqPathsOfEntries index entries).length = (seqsOfEntries entries).length := by
  cases entries with
  | nil => rfl
  | cons e rest =>
    obtain ⟨key, t⟩ := e
    simp only [seqPathsOfEntries, seqsOfEntries, List.length_append, List.length_map]
    rw [length_seqPaths t, length_seqPathsOfEntries (index + 1) rest]

end

mutual

/-- Rewrites every sequence, in order, while a state is carried along. -/
def traverse {σ : Type} (f : Seq Item → σ → Seq Item × σ) : Tree → σ → Tree × σ
  | seq s, st => let (s, st) := f s st; (seq s, st)
  | map entries, st => let (entries, st) := traverseEntries f entries st; (map entries, st)
termination_by structural t => t

def traverseEntries {σ : Type} (f : Seq Item → σ → Seq Item × σ) :
    List (Key × Tree) → σ → List (Key × Tree) × σ
  | [], st => ([], st)
  | (key, t) :: rest, st =>
    let (t, st) := traverse f t st
    let (rest, st) := traverseEntries f rest st
    ((key, t) :: rest, st)
termination_by structural entries => entries

end

def mapSeqs (f : Seq Item → Seq Item) (t : Tree) : Tree :=
  (t.traverse (fun s (_ : Unit) => (f s, ())) ()).1

mutual

theorem seqs_traverse {σ : Type} (f : Seq Item → Seq Item) (t : Tree) (st : σ) :
    (t.traverse (fun s st => (f s, st)) st).1.seqs = t.seqs.map f := by
  cases t with
  | seq s => simp [traverse, seqs]
  | map entries => simpa [traverse, seqs] using seqs_traverseEntries f entries st

theorem seqs_traverseEntries {σ : Type} (f : Seq Item → Seq Item) (entries : List (Key × Tree))
    (st : σ) :
    seqsOfEntries (traverseEntries (fun s st => (f s, st)) entries st).1 =
      (seqsOfEntries entries).map f := by
  cases entries with
  | nil => rfl
  | cons e rest =>
    obtain ⟨key, t⟩ := e
    simp only [traverseEntries, seqsOfEntries, List.map_append]
    rw [seqs_traverse f t, seqs_traverseEntries f rest]

end

theorem seqs_mapSeqs (f : Seq Item → Seq Item) (t : Tree) : (t.mapSeqs f).seqs = t.seqs.map f :=
  seqs_traverse f t ()

def force (t : Tree) : Tree := t.mapSeqs Seq.force

def itemFlow (t : Tree) : Flow Item := .join (t.seqs.map Seq.flow)

end Tree

end GraphQuery
