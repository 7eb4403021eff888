import GraphQuery.Number.Shortest
/-!
# Texts of numbers

A `FloatFormat` holds every decision about the text of a float apart from its digits, which are
always the fewest that read back.  The three formats of the library stand at the end.
-/

namespace GraphQuery

structure FloatFormat where
  tie : Tie
  /-- positional while `10 ^ lowest ≤ |x|`; no bound if absent -/
  lowest : Option Int
  /-- positional while `|x| < 10 ^ highest`; no bound if absent -/
  highest : Option Int
  pointZero : Bool
  plusSign : Bool

namespace Decimal

def digits (d : Decimal) : List Char := Nat.toDigits 10 d.coefficient

def leading (d : Decimal) : Int := d.exponent + d.digits.length - 1

def positional (pointZero : Bool) (d : Decimal) : List Char :=
  if 0 ≤ d.exponent then
    d.digits ++ List.replicate d.exponent.toNat '0' ++ if pointZero then ['.', '0'] else []
  else
    let places := (-d.exponent).toNat
    let padded := List.replicate (places + 1 - d.digits.length) '0' ++ d.digits
    padded.take (padded.length - places) ++ '.' :: padded.drop (padded.length - places)

def scientific (plusSign : Bool) (d : Decimal) : List Char :=
  let mantissa := match d.digits with
    | [] => []
    | [c] => [c]
    | c :: rest => c :: '.' :: rest
  let sign := if d.leading < 0 then ['-'] else if plusSign then ['+'] else []
  mantissa ++ 'e' :: sign ++ Nat.toDigits 10 d.leading.natAbs

end Decimal

namespace FloatFormat

def isPositional (f : FloatFormat) (d : Decimal) : Bool :=
  f.lowest.all (· ≤ d.leading) && f.highest.all (d.leading < ·)

def unsigned (f : FloatFormat) (d : Double) : List Char :=
  if d.magnitude = 0 then Decimal.positional f.pointZero ⟨0, 0⟩
  else
    let digits := d.shortest f.tie
    if f.isPositional digits then digits.positional f.pointZero
    else digits.scientific f.plusSign

def render (f : FloatFormat) (d : Double) : String :=
  if d.isNaN then "NaN"
  else
    let body := if d.isInfinite then ['i', 'n', 'f'] else f.unsigned d
    String.ofList (if d.isNegative then '-' :: body else body)

def plain : FloatFormat :=
  { tie := .up, lowest := none, highest := none, pointZero := false, plusSign := false }

def form : FloatFormat :=
  { tie := .up, lowest := some (-4), highest := some 16, pointZero := true, plusSign := false }

def json : FloatFormat :=
  { tie := .even, lowest := some (-5), highest := some 16, pointZero := true, plusSign := true }

end FloatFormat

end GraphQuery
