import GraphQuery.Value.Equality
/-!
# Orders of values

`Value.order` compares any two values and serves sorting and the sorted set operations: values of
unrelated kinds lie in the order null, booleans, numbers, strings, lists, records.  Records tie
unless both carry identifiers, and then those decide.

`Value.compare?` serves filters and answers nothing where a comparison makes no sense.
-/

namespace GraphQuery

namespace Value

/-- The place of a value's kind in the order; integers and floats share one. -/
def rank : Value → Nat
  | null => 0
  | bool _ => 1
  | int _ => 2
  | float _ => 2
  | string _ => 3
  | list _ => 4
  | record _ => 5

def widen (i : Int64) : Double := Double.ofInt i.toInt

mutual

def order : Value → Value → Ordering
  | null, null => .eq
  | int a, int b => compare a.toInt b.toInt
  | float a, float b => a.totalCompare b
  | int a, float b => (widen a).totalCompare b
  | float a, int b => a.totalCompare (widen b)
  | string a, string b => compare a b
  | bool a, bool b => compare a b
  | list a, list b => orderValues a b
  | record ⟨a⟩, record ⟨b⟩ =>
    match Record.lookup idField b with
    | some id => (orderId? a id).getD .eq
    | none => .eq
  | a, b => compare a.rank b.rank
termination_by structural v => v

def orderValues : List Value → List Value → Ordering
  | [], [] => .eq
  | [], _ :: _ => .lt
  | _ :: _, [] => .gt
  | a :: as, b :: bs =>
    match a.order b with
    | .eq => orderValues as bs
    | o => o
termination_by structural vs => vs

def orderId? : List (String × Value) → Value → Option Ordering
  | [], _ => none
  | (n, v) :: rest, id => if n = idField then some (v.order id) else orderId? rest id
termination_by structural fields => fields

end

mutual

/-- The order used by filters: nothing for null, records, NaNs and values of unrelated kinds. -/
def compare? : Value → Value → Option Ordering
  | int a, int b => some (compare a.toInt b.toInt)
  | int a, float b => (widen a).compare? b
  | float a, int b => a.compare? (widen b)
  | float a, float b => a.compare? b
  | string a, string b => some (compare a b)
  | bool a, bool b => some (compare a b)
  | list a, list b => compareValues? a b
  | _, _ => none
termination_by structural v => v

/-- The first pair that is not equal decides, also if it does not compare; then the length does. -/
def compareValues? : List Value → List Value → Option Ordering
  | [], [] => some .eq
  | [], _ :: _ => some .lt
  | _ :: _, [] => some .gt
  | a :: as, b :: bs =>
    match a.compare? b with
    | some .eq => compareValues? as bs
    | o => o
termination_by structural vs => vs

end

theorem orderId?_eq (fields : List (String × Value)) (id : Value) :
    orderId? fields id = (Record.lookup idField fields).map (·.order id) := by
  induction fields with
  | nil => rfl
  | cons f rest ih =>
    obtain ⟨n, v⟩ := f
    by_cases h : n = idField <;> simp [orderId?, Record.lookup, h, ih]

theorem order_record (a b : Item) :
    (record a).order (record b) = match a.id?, b.id? with
      | some x, some y => x.order y
      | _, _ => .eq := by
  obtain ⟨a⟩ := a
  obtain ⟨b⟩ := b
  simp only [order, Record.id?, Record.get?, orderId?_eq]
  cases Record.lookup idField a <;> cases Record.lookup idField b <;> rfl

end Value

def Item.compare? (a b : Item) : Option Ordering :=
  match a.id?, b.id? with
  | some x, some y => some (x.order y)
  | _, _ => if a.same b then some .eq else none

/-!
## Sorting

Sorting is by insertion and stable: an element moves left past exactly those neighbours that it
lies strictly below.
-/

/--
Inserts an element into a list given backwards, moving it past the elements that it lies strictly
below.
-/
def insertBack {α : Type} (order : α → α → Ordering) (x : α) : List α → List α
  | [] => [x]
  | y :: ys => if order x y = .lt then y :: insertBack order x ys else x :: y :: ys

def stableSort {α : Type} (order : α → α → Ordering) (xs : List α) : List α :=
  (xs.foldl (fun sorted x => insertBack order x sorted) []).reverse

theorem perm_insertBack {α : Type} (order : α → α → Ordering) (x : α) (ys : List α) :
    (insertBack order x ys).Perm (x :: ys) := by
  induction ys with
  | nil => exact .refl _
  | cons y ys ih =>
    simp only [insertBack]
    split
    · exact (ih.cons y).trans (.swap x y ys)
    · exact .refl _

theorem perm_stableSort {α : Type} (order : α → α → Ordering) (xs : List α) :
    (stableSort order xs).Perm xs := by
  have go (sorted rest : List α) :
      (rest.foldl (fun sorted x => insertBack order x sorted) sorted).Perm (sorted ++ rest) := by
    induction rest generalizing sorted with
    | nil => simp
    | cons x rest ih =>
      exact (ih _).trans (((perm_insertBack order x sorted).append_right rest).trans
        List.perm_middle.symm)
  exact (List.reverse_perm _).trans (by simpa using go [] xs)

/-- The first occurrence of every element, in order. -/
def distinct {α : Type} [BEq α] (xs : List α) : List α :=
  xs.foldl (fun kept x => if kept.contains x then kept else kept ++ [x]) []

end GraphQuery
