import GraphQuery.Number.Double
/-!
# The shortest decimal that reads back

A positive double stands for the interval of reals that round to it; its ends belong to it exactly
when the mantissa is even.  `shortest` searches the powers of ten from coarse to fine and stops at
the first whose multiples meet the interval.  On that grid only the two neighbours of the exact
value matter, and the nearer one is taken.
-/

namespace GraphQuery

inductive Tie where
  | up
  | even
deriving DecidableEq

/-- A positive decimal number `coefficient * 10 ^ exponent`. -/
structure Decimal where
  coefficient : Nat
  exponent : Int
deriving DecidableEq

namespace Double

/--
The interval of reals that round to a positive double, in units of a quarter of its last bit.
A unit is `num / den`.
-/
structure Interval where
  low : Nat
  exact : Nat
  high : Nat
  closed : Bool
  num : Nat
  den : Nat

/-- Below a power of two the neighbouring doubles lie half as far apart. -/
def interval (d : Double) : Interval :=
  let ⟨m, e⟩ := d.scaled
  { low := if m = hidden ∧ lowestExponent < e then 4 * m - 1 else 4 * m - 2
    exact := 4 * m
    high := 4 * m + 2
    closed := m % 2 = 0
    num := 1 <<< (e - 2).toNat
    den := 1 <<< (2 - e).toNat }

/-- The factors that compare `c * 10 ^ k` with `x` units: `c * grid` against `x * unit`. -/
structure Scale where
  grid : Nat
  unit : Nat

def Interval.scale (i : Interval) (k : Int) : Scale :=
  ⟨i.den * Nat.pow 10 k.toNat, i.num * Nat.pow 10 (-k).toNat⟩

def Interval.holds (i : Interval) (s : Scale) (c : Nat) : Bool :=
  if i.closed then i.low * s.unit ≤ c * s.grid && c * s.grid ≤ i.high * s.unit
  else i.low * s.unit < c * s.grid && c * s.grid < i.high * s.unit

def Interval.onGrid? (i : Interval) (tie : Tie) (k : Int) : Option Nat :=
  let s := i.scale k
  let below := i.exact * s.unit / s.grid
  let above := below + 1
  match i.holds s below, i.holds s above with
  | false, false => none
  | true, false => some below
  | false, true => some above
  | true, true =>
    match compare (2 * i.exact * s.unit) ((below + above) * s.grid), tie with
    | .lt, _ => some below
    | .gt, _ => some above
    | .eq, .up => some above
    | .eq, .even => some (if below % 2 = 0 then below else above)

/-- The first grid with a hit among `10 ^ k`, `10 ^ (k - 1)` and so on, `steps` of them. -/
def Interval.coarsest (i : Interval) (tie : Tie) : Nat → Int → Decimal
  | 0, k => ⟨i.exact * (i.scale k).unit / (i.scale k).grid, k⟩
  | steps + 1, k =>
    match i.onGrid? tie k with
    | some c => ⟨c, k⟩
    | none => i.coarsest tie steps (k - 1)

def digitCount (n : Nat) : Nat := (Nat.toDigits 10 n).length

def Interval.decade (i : Interval) : Int :=
  let n := i.exact * i.num
  if i.den ≤ n then (digitCount (n / i.den) : Int) - 1
  else -(digitCount ((i.den + n - 1) / n - 1) : Int)

/-- Seventeen digits always suffice, so the search ends within nineteen grids. -/
def shortest (tie : Tie) (d : Double) : Decimal :=
  let i := d.interval
  i.coarsest tie 19 (i.decade + 1)

end Double

end GraphQuery
