import GraphQuery.Number.Shortest
/-!
# Reading numerals

A numeral is digits, an optional point with more digits, and an optional exponent.  Its value is
kept exactly, as a `Decimal`, and rounded once to the nearest double.
-/

namespace GraphQuery

namespace Decimal

/-- A decimal whose leading digit lies at or above this power of ten is infinite as a double. -/
def highestDecade : Int := 310

/-- A decimal below this power of ten is zero as a double. -/
def lowestDecade : Int := -400

/-- The nearest double; beyond the decades that doubles reach, the answer is known at once. -/
def toDouble (negative : Bool) (d : Decimal) : Double :=
  let top := d.exponent + Double.digitCount d.coefficient
  if d.coefficient = 0 ∨ top < lowestDecade then Double.ofParts negative 0
  else if highestDecade < top then Double.ofParts negative Double.infinite
  else Double.ofRatio negative (d.coefficient * Nat.pow 10 d.exponent.toNat)
    (Nat.pow 10 (-d.exponent).toNat)

end Decimal

namespace Numeral

def digitsValue (ds : List Char) : Nat :=
  ds.foldl (fun n c => 10 * n + (c.toNat - '0'.toNat)) 0

def takeDigits (cs : List Char) : List Char × List Char :=
  (cs.takeWhile Char.isDigit, cs.dropWhile Char.isDigit)

def takeMinus : List Char → Bool × List Char
  | '-' :: cs => (true, cs)
  | cs => (false, cs)

def int64? (cs : List Char) : Option Int64 :=
  let (negative, rest) := takeMinus cs
  if rest.isEmpty || !rest.all Char.isDigit then none
  else
    let value : Int := if negative then -(digitsValue rest : Int) else digitsValue rest
    if Int64.minValue.toInt ≤ value ∧ value ≤ Int64.maxValue.toInt then
      some (Int64.ofInt value)
    else none

def exponent? (cs : List Char) : Option Int :=
  let (sign, rest) : Int × List Char := match cs with
    | '-' :: r => (-1, r)
    | '+' :: r => (1, r)
    | r => (1, r)
  if rest.isEmpty || !rest.all Char.isDigit then none else some (sign * digitsValue rest)

def decimal (whole places : List Char) (exponent : Int) : Decimal :=
  ⟨digitsValue (whole ++ places), exponent - places.length⟩

/--
A float: an optional minus sign, digits with an optional point among or beside them, and an
optional exponent.
-/
def double? (cs : List Char) : Option Double :=
  let (negative, rest) := takeMinus cs
  let (whole, rest) := takeDigits rest
  let (places, rest) := match rest with
    | '.' :: r => takeDigits r
    | r => ([], r)
  if whole.isEmpty && places.isEmpty then none
  else
    match rest with
    | [] => some ((decimal whole places 0).toDouble negative)
    | c :: r =>
      if c = 'e' ∨ c = 'E' then
        (exponent? r).map fun e => (decimal whole places e).toDouble negative
      else none

end Numeral

end GraphQuery
