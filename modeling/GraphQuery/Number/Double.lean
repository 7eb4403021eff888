/-!
# Binary floating point numbers

A `Double` is the 64-bit pattern of a binary floating point number, so two of them are equal
exactly when their patterns are: `-0.0` differs from `0.0`, and a NaN equals itself.  Everything
a query does with a float is defined here on the pattern, in `Nat` and `Int`: the total order
used by sorting, the partial order used by filters, rounding of a quotient, and addition.
-/

namespace GraphQuery

structure Double where
  bits : UInt64
deriving DecidableEq

namespace Double

/-! ## The parts of a pattern -/

/-- The number of values with one exponent: the hidden bit of a mantissa. -/
def hidden : Nat := 1 <<< 52

/-- The magnitude pattern of infinity; everything above it is a NaN. -/
def infinite : Nat := 0x7ff <<< 52

def lowestExponent : Int := -1074

def magnitude (d : Double) : Nat := d.bits.toNat % 1 <<< 63

def isNegative (d : Double) : Bool := 1 <<< 63 ≤ d.bits.toNat

def isNaN (d : Double) : Bool := infinite < d.magnitude

def isInfinite (d : Double) : Bool := d.magnitude = infinite

def isFinite (d : Double) : Bool := d.magnitude < infinite

def ofParts (negative : Bool) (magnitude : Nat) : Double :=
  ⟨UInt64.ofNat (if negative then 1 <<< 63 + magnitude else magnitude)⟩

def undefinedSum : Double := ofParts true (infinite + 1 <<< 51)

/-- A finite number is `mantissa * 2 ^ exponent`, up to its sign. -/
structure Scaled where
  mantissa : Nat
  exponent : Int

/-- The mantissa and exponent of a finite number; subnormal numbers lack the hidden bit. -/
def scaled (d : Double) : Scaled :=
  let biased := d.magnitude / hidden
  let fraction := d.magnitude % hidden
  if biased = 0 then ⟨fraction, lowestExponent⟩
  else ⟨hidden + fraction, lowestExponent - 1 + biased⟩

/-! ## Orders -/

/-- Position in the total order: negative patterns run backwards below the positive ones. -/
def totalKey (d : Double) : Int :=
  if d.isNegative then -1 - d.magnitude else d.magnitude

/-- The order in which `-0.0` lies below `0.0`, and NaNs lie beyond the infinities. -/
def totalCompare (a b : Double) : Ordering := compare a.totalKey b.totalKey

def lineKey (d : Double) : Int :=
  if d.isNegative then -(d.magnitude : Int) else d.magnitude

def compare? (a b : Double) : Option Ordering :=
  if a.isNaN || b.isNaN then none else some (compare a.lineKey b.lineKey)

def sameNumber (a b : Double) : Bool := a.compare? b = some .eq

/-! ## Rounding -/

/-- The quotient rounded to the nearest integer, a half going to the even neighbour. -/
def roundHalfEven (num den : Nat) : Nat :=
  let q := num / den
  match compare (2 * (num % den)) den with
  | .lt => q
  | .gt => q + 1
  | .eq => q + q % 2

/-- `num / den` as `(n, d)` with `n / d = (num / den) / 2 ^ e`. -/
def descale (num den : Nat) (e : Int) : Nat × Nat :=
  (num <<< (-e).toNat, den <<< e.toNat)

def log2Ratio (num den : Nat) : Int :=
  let guess : Int := (Nat.log2 num : Int) - Nat.log2 den
  let (n, d) := descale num den guess
  if n < d then guess - 1 else guess

/--
The double nearest to `num / den`, a tie going to the even mantissa; too large a quotient gives
infinity.  With `e` the exponent of the last bit, the rounded mantissa is added to the pattern of
that exponent, so a mantissa that rounds up to the next power of two carries into the exponent.
-/
def ofRatio (negative : Bool) (num den : Nat) : Double :=
  if num = 0 then ofParts negative 0
  else
    let e := max (log2Ratio num den - 52) lowestExponent
    let (n, d) := descale num den e
    let magnitude := (e - lowestExponent).toNat * hidden + roundHalfEven n d
    ofParts negative (min magnitude infinite)

def ofInt (i : Int) : Double := ofRatio (i < 0) i.natAbs 1

/-! ## Addition -/

def quiet (d : Double) : Double :=
  ofParts d.isNegative (d.magnitude ||| 1 <<< 51)

def units (d : Double) : Int :=
  let s := d.scaled
  let size : Nat := s.mantissa <<< (s.exponent - lowestExponent).toNat
  if d.isNegative then -size else size

/--
The sum, rounded to nearest.  An exact zero is negative only if both summands are; of two NaNs the
first is kept.
-/
def add (a b : Double) : Double :=
  if a.isNaN then a.quiet
  else if b.isNaN then b.quiet
  else if a.isInfinite then
    if b.isInfinite && a.isNegative != b.isNegative then undefinedSum else a
  else if b.isInfinite then b
  else
    let sum := a.units + b.units
    if sum = 0 then ofParts (a.isNegative && b.isNegative) 0
    else ofRatio (sum < 0) sum.natAbs (1 <<< (-lowestExponent).toNat)

instance : Add Double := ⟨add⟩

end Double

end GraphQuery
