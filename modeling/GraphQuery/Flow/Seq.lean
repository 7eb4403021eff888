import GraphQuery.Flow.Basic
/-!
# Sequences

A sequence of a result tree is lazy until something addresses its elements by position; then it is
buffered, for good.  Transforming a sequence makes it lazy again.
-/

namespace GraphQuery

/-- Elements in a buffer, or a flow that has yet to run. -/
inductive Seq (α : Type) where
  | buffered (elements : List α)
  | lazy (flow : Flow α)

namespace Seq

variable {α β : Type}

instance : Inhabited (Seq α) := ⟨buffered []⟩

def isBuffered : Seq α → Bool
  | buffered _ => true
  | lazy _ => false

def toList : Seq α → List α
  | buffered xs => xs
  | lazy f => f.toList

def flow : Seq α → Flow α
  | buffered xs => .ofList xs
  | lazy f => f

def pulls : Seq α → List Nat
  | buffered _ => []
  | lazy f => f.pulls

def force (s : Seq α) : Seq α := buffered s.toList

structure Step (α : Type) where
  pulls : List Nat
  element : Option α
  rest : Seq α

def next : Seq α → Step α
  | buffered [] => ⟨[], none, buffered []⟩
  | buffered (x :: xs) => ⟨[], some x, buffered xs⟩
  | lazy f =>
    match f.next with
    | ⟨pulls, none⟩ => ⟨pulls, none, lazy ⟨[]⟩⟩
    | ⟨pulls, some (a, rest)⟩ => ⟨pulls, some a, lazy rest⟩

/-- Rewrites the flow of a sequence; nothing is pulled. -/
def apply (s : Seq α) (g : Flow α → Flow β) : Seq β := lazy (g s.flow)

def deferred (f : Flow α) : Seq α := lazy (f.defer id)

/-! ## Elements of sequences -/

@[simp] theorem toList_flow (s : Seq α) : s.flow.toList = s.toList := by
  cases s <;> simp [flow, toList]

@[simp] theorem pulls_flow (s : Seq α) : s.flow.pulls = s.pulls := by
  cases s <;> simp [flow, pulls]

@[simp] theorem toList_force (s : Seq α) : s.force.toList = s.toList := rfl

theorem toList_next (s : Seq α) : s.toList = s.next.element.toList ++ s.next.rest.toList := by
  cases s with
  | buffered xs => cases xs <;> rfl
  | lazy f =>
    simp only [toList, next]
    rw [Flow.toList_next]
    rcases f.next with ⟨pulls, _ | ⟨a, rest⟩⟩ <;> rfl

end Seq

end GraphQuery
