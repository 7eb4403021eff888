/-!
# Paths

A path addresses an item in a result tree: some mapping entries down to a sequence, a position in
the sequence, and then, alternating, a field and a position in its list.
-/

namespace GraphQuery

inductive Step where
  | entry (index : Nat)
  | item (index : Nat)
  | field (name : String)
deriving DecidableEq

/-- The steps from the root of a tree. -/
abbrev Path := List Step

namespace Step

def render : Step → String
  | entry n => "\x7b" ++ toString n ++ "\x7d"
  | item n => toString n
  | field name => name

/-- Entries come before items and items before fields. -/
def order : Step → Step → Ordering
  | entry a, entry b => compare a b
  | entry _, _ => .lt
  | item _, entry _ => .gt
  | item a, item b => compare a b
  | item _, field _ => .lt
  | field a, field b => compare a b
  | field _, _ => .gt

end Step

namespace Path

def render (p : Path) : String := "/" ++ "/".intercalate (p.map Step.render)

def order : Path → Path → Ordering
  | [], [] => .eq
  | [], _ :: _ => .lt
  | _ :: _, [] => .gt
  | a :: as, b :: bs =>
    match a.order b with
    | .eq => order as bs
    | o => o

def strip? : Path → Path → Option Path
  | p, [] => some p
  | [], _ :: _ => none
  | a :: as, b :: bs => if a = b then strip? as bs else none

theorem strip?_eq_some_iff {p q rest : Path} : strip? p q = some rest ↔ p = q ++ rest := by
  induction q generalizing p with
  | nil => cases p <;> simp [strip?]
  | cons b bs ih =>
    cases p with
    | nil => simp [strip?]
    | cons a as =>
      by_cases h : a = b
      · simp [strip?, h, ih]
      · simp [strip?, h]

/--
A path after the item at `removed` was taken out: paths at or below it are gone, and its later
siblings move up by one.
-/
def shift? : (removed path : Path) → Option Path
  | [], _ => none
  | _ :: _, [] => some []
  | [gone], s :: rest =>
    if s = gone then none
    else match s, gone with
      | .item mine, .item taken =>
        some (if taken < mine then .item (mine - 1) :: rest else .item mine :: rest)
      | _, _ => some (s :: rest)
  | r :: removed, s :: rest =>
    if r = s then (shift? removed rest).map (s :: ·) else some (s :: rest)

end Path

end GraphQuery
