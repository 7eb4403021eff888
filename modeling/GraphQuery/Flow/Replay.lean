/-!
# Replays

A replay buffers a source as it is read, so that any number of cursors can read it from the start,
each at its own pace.  The source is asked once per element and once for its end.
-/

namespace GraphQuery

structure Source (α : Type) where
  remaining : List α
  given : Nat := 0
  ended : Nat := 0

def Source.ask {α : Type} (s : Source α) : Option α × Source α :=
  match s.remaining with
  | [] => (none, { s with ended := s.ended + 1 })
  | a :: rest => (some a, { s with remaining := rest, given := s.given + 1 })

/-- What has been read of a source, and whether it can still be asked. -/
structure Replay (α : Type) where
  buffer : List α
  source : Source α
  exhausted : Bool

namespace Replay

variable {α β : Type}

def ofSource (xs : List α) : Replay α := ⟨[], ⟨xs, 0, 0⟩, false⟩

def ofList (xs : List α) : Replay α := ⟨xs, ⟨[], 0, 0⟩, true⟩

def size (r : Replay α) : Nat := r.buffer.length

structure Read (α : Type) where
  element : Option α
  position : Nat
  replay : Replay α

/--
Reads at a position.  Behind the buffer the source is asked, unless it has ended; the position
moves only past an element.
-/
def read (r : Replay α) (position : Nat) : Read α :=
  match r.buffer[position]? with
  | some a => ⟨some a, position + 1, r⟩
  | none =>
    if r.exhausted then ⟨none, position, r⟩
    else match r.source.ask with
      | (some a, source) => ⟨some a, position + 1, { r with buffer := r.buffer ++ [a], source }⟩
      | (none, source) => ⟨none, position, { r with source, exhausted := true }⟩

/-- Asks a source until it ends, at most once for every element it has left and once more. -/
def exhaust (r : Replay α) : Replay α :=
  if r.exhausted then r
  else
    { buffer := r.buffer ++ r.source.remaining
      source := ⟨[], r.source.given + r.source.remaining.length, r.source.ended + 1⟩
      exhausted := true }

def map (f : α → β) (r : Replay α) : Replay β := ofList (r.exhaust.buffer.map f)

end Replay

end GraphQuery
