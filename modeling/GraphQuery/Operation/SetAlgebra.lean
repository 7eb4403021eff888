import GraphQuery.Flow.Basic
import GraphQuery.Value.Order
/-!
# Set operations on flows of items

Intersection and union walk several flows in step and expect each of them to hand out its items by
descending identifier.  Difference compares whole items and expects no order.

In every round the flows are asked for their heads, and at least one head is used up; so a round
for each element, and one more, reach the end.
-/

namespace GraphQuery

namespace SetAlgebra

/-- What items are merged by: their identifier, or null. -/
def key (item : Item) : Value := item.id?.getD .null

structure Head where
  item : Item
  rest : Flow Item

namespace Head

def key (h : Head) : Value := SetAlgebra.key h.item

def flow (h : Head) : Flow Item := ⟨.yield h.item :: h.rest.events⟩

end Head

def head (f : Flow Item) : List Nat × Option Head :=
  let s := f.next
  (s.pulls, s.next.map fun (item, rest) => ⟨item, rest⟩)

def size (fs : List (Flow Item)) : Nat := (fs.flatMap fun f => f.toList).length

/-! ## Intersection -/

/-- The heads of all flows, in order; the first flow that has ended stops the asking. -/
def heads : List (Flow Item) → List Nat × Option (List Head)
  | [] => ([], some [])
  | f :: rest =>
    match head f with
    | (pulls, none) => (pulls, none)
    | (pulls, some h) =>
      let (more, hs) := heads rest
      (pulls ++ more, hs.map (h :: ·))

def lowest (first : Value) (others : List Value) : Value :=
  others.foldl (fun low k => if low.order k = .gt then k else low) first

/--
Flows whose heads all tie hand out the first one's item and drop the others'; else the heads above
the lowest are dropped.
-/
def intersectRounds : Nat → List (Flow Item) → List (Event Item)
  | 0, _ => []
  | rounds + 1, fs =>
    match heads fs with
    | (pulls, none) => Flow.pulling pulls
    | (_, some []) => []
    | (pulls, some (h :: hs)) =>
      let low := lowest h.key (hs.map Head.key)
      if (h :: hs).all fun x => x.key.order low = .eq then
        Flow.pulling pulls ++ .yield h.item :: intersectRounds rounds ((h :: hs).map Head.rest)
      else
        Flow.pulling pulls ++ intersectRounds rounds
          ((h :: hs).map fun x => if x.key.order low = .gt then x.rest else x.flow)

def intersect (fs : List (Flow Item)) : Flow Item := ⟨intersectRounds (size fs + 1) fs⟩

/-! ## Union -/

def allHeads : List (Flow Item) → List Nat × List (Option Head)
  | [] => ([], [])
  | f :: rest =>
    let (pulls, h) := head f
    let (more, hs) := allHeads rest
    (pulls ++ more, h :: hs)

def highest (best : Option (Nat × Head)) (index : Nat) : List (Option Head) → Option (Nat × Head)
  | [] => best
  | none :: rest => highest best (index + 1) rest
  | some h :: rest =>
    match best with
    | none => highest (some (index, h)) (index + 1) rest
    | some (i, g) =>
      highest (some (if g.key.order h.key = .lt then (index, h) else (i, g))) (index + 1) rest

def dropIf (top : Value) (f : Flow Item) : List Nat × Flow Item :=
  match head f with
  | (pulls, none) => (pulls, ⟨[]⟩)
  | (pulls, some h) => (pulls, if h.key.order top = .eq then h.rest else h.flow)

/-- What a round leaves of a flow, given whether its head is the one handed out. -/
def afterUnion (top : Value) (chosen : Bool) : Option Head → List Nat × Flow Item
  | none => ([], ⟨[]⟩)
  | some h =>
    if chosen then dropIf top h.rest
    else ([], if h.key.order top = .eq then h.rest else h.flow)

def leftover (top : Value) : Option Nat → List (Option Head) → List Nat × List (Flow Item)
  | _, [] => ([], [])
  | index, h :: rest =>
    let (pulls, f) := afterUnion top (index = some 0) h
    let (more, fs) := leftover top (index.bind fun i => if i = 0 then none else some (i - 1)) rest
    (pulls ++ more, f :: fs)

/--
The highest head is handed out, unless its key ties with the one handed out before; every head that
ties with it is dropped.
-/
def unionRounds : Nat → Option Value → List (Flow Item) → List (Event Item)
  | 0, _, _ => []
  | rounds + 1, last, fs =>
    let (pulls, hs) := allHeads fs
    match highest none 0 hs with
    | none => Flow.pulling pulls
    | some (index, h) =>
      let top := h.key
      let (more, fs) := leftover top (some index) hs
      if last.any fun l => l.order top = .eq then
        Flow.pulling (pulls ++ more) ++ unionRounds rounds last fs
      else
        Flow.pulling (pulls ++ more) ++ .yield h.item :: unionRounds rounds (some top) fs

def union (fs : List (Flow Item)) : Flow Item := ⟨unionRounds (size fs + 1) none fs⟩

/-! ## Difference -/

/--
Withholds the items that are excluded or have been handed out before.  The pulls that read the
excluded items are made once, behind the first item.
-/
def subtractEvents (excluded : List Item) :
    List Nat → List Item → List (Event Item) → List (Event Item)
  | _, _, [] => []
  | asking, seen, .pull source :: rest => .pull source :: subtractEvents excluded asking seen rest
  | asking, seen, .yield a :: rest =>
    Flow.pulling asking ++
      if excluded.contains a || seen.contains a then subtractEvents excluded [] seen rest
      else .yield a :: subtractEvents excluded [] (a :: seen) rest

def difference (left right : Flow Item) : Flow Item :=
  ⟨subtractEvents right.toList right.pulls [] left.events⟩

end SetAlgebra

end GraphQuery
