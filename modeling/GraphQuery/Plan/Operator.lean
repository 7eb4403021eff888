import GraphQuery.Plan.Basic
import GraphQuery.Form.Basic
/-!
# The catalogue of operators

The spelling of every operator and the number of arguments it takes.  A list whose head is not in
the catalogue is no operator form: the whole list is a list of identifiers.
-/

namespace GraphQuery

inductive Operator where
  | limit
  | sample
  | reverse
  | count
  | filter
  | project
  | orderBy
  | groupBy
  | aggregate
  | combine (how : Combination)
  | difference
  | nest
  | bind
  | target
  | apply
  | assoc
  | obj
  | literal
  | json
  | exist
deriving DecidableEq

/-- An entry of the catalogue; without `most`, any larger number of arguments is accepted. -/
structure Signature where
  name : String
  operator : Operator
  least : Nat
  most : Option Nat

namespace Signature

def accepts (s : Signature) (count : Nat) : Bool := s.least ≤ count && s.most.all (count ≤ ·)

def arity (s : Signature) : String :=
  match s.most with
  | none => "at least " ++ toString s.least
  | some most =>
    if most = s.least then toString most else toString s.least ++ ".." ++ toString most

def catalogue : List Signature :=
  [⟨"limit", .limit, 2, some 3⟩,
   ⟨"random", .sample, 2, some 2⟩,
   ⟨"reverse", .reverse, 1, some 1⟩,
   ⟨"count", .count, 1, some 1⟩,
   ⟨"filter", .filter, 2, some 2⟩,
   ⟨"project", .project, 2, some 2⟩,
   ⟨"orderby", .orderBy, 2, some 2⟩,
   ⟨"groupby", .groupBy, 2, some 2⟩,
   ⟨"aggregate", .aggregate, 1, some 1⟩,
   ⟨"and", .combine .and, 1, none⟩,
   ⟨"or", .combine .or, 1, none⟩,
   ⟨"index_or", .combine .indexOr, 1, none⟩,
   ⟨"difference", .difference, 2, some 2⟩,
   ⟨"merge", .combine .merge, 1, none⟩,
   ⟨"nest", .nest, 2, some 2⟩,
   ⟨"let", .bind, 2, some 2⟩,
   ⟨"target", .target, 2, some 2⟩,
   ⟨"targets", .target, 2, some 2⟩,
   ⟨"apply", .apply, 2, some 2⟩,
   ⟨"assoc", .assoc, 1, some 2⟩,
   ⟨"obj", .obj, 1, none⟩,
   ⟨"literal", .literal, 0, none⟩,
   ⟨"json_literal", .json, 1, some 1⟩,
   ⟨"exists", .exist, 1, some 1⟩,
   ⟨"join", .combine .join, 1, none⟩]

def find? (name : String) : Option Signature := catalogue.find? (·.name = name)

def ofForm? (f : Form) : Option Signature := f.head?.bind find?

end Signature

end GraphQuery
