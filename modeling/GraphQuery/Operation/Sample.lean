/-!
# Uniform samples

A sample of `k` elements is taken in one pass: the first `k` elements fill the slots, and every
later one takes the place of a uniformly drawn slot, or of none.  Draws come from a supply of
random words, so that which slot is drawn and how the sample changes are separate matters.

All `k` slots are allocated before the first element is looked at.  Slots that exceed what a vector may
have are refused there, however few elements follow (`Reservoir.sample`); whether the machine has the
memory for slots that are allowed is outside this description.
-/

namespace GraphQuery

/-! ## Slots -/

namespace Reservoir

variable {α σ : Type}

def place (slots : List α) (drawn : Nat) (a : α) : List α :=
  if drawn < slots.length then slots.set drawn a else slots

/--
Goes through elements of which `seen` precede; the element with `i` before it draws a number from
`0` to `i`, unless a slot is still free.
-/
def fill (draw : Nat → σ → Nat × σ) (k : Nat) : Nat → List α → List α → σ → List α × σ
  | _, slots, [], s => (slots, s)
  | seen, slots, a :: rest, s =>
    if seen < k then fill draw k (seen + 1) (slots ++ [a]) rest s
    else
      let (drawn, s) := draw seen s
      fill draw k (seen + 1) (place slots drawn a) rest s

def pick (draw : Nat → σ → Nat × σ) (k : Nat) (xs : List α) (s : σ) : List α × σ :=
  fill draw k 0 [] xs s

/-- The bytes that a vector may have. -/
def room : Nat := Int64.maxValue.toInt.toNat

/-- A sample of elements that take `size` bytes each, if a vector may hold `k` of them. -/
def sample (size : Nat) (draw : Nat → σ → Nat × σ) (k : Nat) (xs : List α) (s : σ) :
    Option (List α × σ) :=
  if size * k ≤ room then some (pick draw k xs s) else none

theorem sample_eq_some_iff {size : Nat} {draw : Nat → σ → Nat × σ} {k : Nat} {xs : List α} {s : σ}
    {r : List α × σ} : sample size draw k xs s = some r ↔ size * k ≤ room ∧ pick draw k xs s = r := by
  simp [sample]

theorem sample_eq_none_iff {size : Nat} {draw : Nat → σ → Nat × σ} {k : Nat} {xs : List α} {s : σ} :
    sample size draw k xs s = none ↔ room < size * k := by
  simp [sample]

@[simp] theorem length_place (slots : List α) (drawn : Nat) (a : α) :
    (place slots drawn a).length = slots.length := by
  unfold place
  split <;> simp

theorem length_pick (draw : Nat → σ → Nat × σ) (k : Nat) (xs : List α) (s : σ) :
    (pick draw k xs s).1.length = min k xs.length := by
  have go (seen : Nat) (slots xs : List α) (s : σ) (h : slots.length = min k seen) :
      (fill draw k seen slots xs s).1.length = min k (seen + xs.length) := by
    induction xs generalizing seen slots s with
    | nil => simpa [fill] using h
    | cons a rest ih =>
      simp only [fill]
      split
      · rw [ih (seen + 1) _ s (by simp only [List.length_append, List.length_singleton]; omega)]
        simp only [List.length_cons]
        omega
      · rw [ih (seen + 1) _ _ (by rw [length_place]; omega)]
        simp only [List.length_cons]
        omega
  simpa [pick] using go 0 [] xs s (by simp)

end Reservoir

/-! ## Random words -/

structure Words where
  supply : List UInt64
  drawn : Nat := 0

namespace Words

def modulus : Nat := UInt64.size

/--
The products of a word with `range` whose low half lies above this limit are rejected; those below
fall evenly on all high halves.
-/
def limit (range : Nat) : Nat := range <<< (63 - Nat.log2 range) - 1

def accept (range : Nat) : List UInt64 → Nat → Nat × Words
  | [], drawn => (0, ⟨[], drawn + 1⟩)
  | w :: rest, drawn =>
    let product := w.toNat * range
    if product % modulus ≤ limit range then (product / modulus, ⟨rest, drawn + 1⟩)
    else accept range rest (drawn + 1)

def upTo (most : Nat) (w : Words) : Nat × Words := accept (most + 1) w.supply w.drawn

end Words

end GraphQuery
