import GraphQuery.Json.Basic
import GraphQuery.Number.Numeral
import GraphQuery.Text.Basic
/-!
# The tokens of a JSON text

A JSON text is cut into punctuation and scalars; blanks between them are dropped.  Every token
consumes at least one character (`Token.next?_length`), so cutting ends.
-/

namespace GraphQuery

namespace Json

def maxDepth : Nat := 127

inductive Token where
  | openArray
  | closeArray
  | openObject
  | closeObject
  | comma
  | colon
  | scalar (j : Json)

namespace Token

def isSpace (c : Char) : Bool := c = ' ' || c = '\n' || c = '\t' || c = '\r'

/-! ## Strings -/

def hexValue? (c : Char) : Option Nat :=
  if '0' ≤ c ∧ c ≤ '9' then some (c.toNat - '0'.toNat)
  else if 'a' ≤ c ∧ c ≤ 'f' then some (c.toNat - 'a'.toNat + 10)
  else if 'A' ≤ c ∧ c ≤ 'F' then some (c.toNat - 'A'.toNat + 10)
  else none

def unit? (a b c d : Char) : Option Nat := do
  let a ← hexValue? a
  let b ← hexValue? b
  let c ← hexValue? c
  let d ← hexValue? d
  return ((a * 16 + b) * 16 + c) * 16 + d

def escaped? (c : Char) : Option Char :=
  if c = '"' then some '"'
  else if c = '\\' then some '\\'
  else if c = '/' then some '/'
  else if c = 'b' then some '\x08'
  else if c = 'f' then some '\x0c'
  else if c = 'n' then some '\n'
  else if c = 'r' then some '\r'
  else if c = 't' then some '\t'
  else none

def isHighSurrogate (u : Nat) : Bool := 0xd800 ≤ u && u < 0xdc00

def isLowSurrogate (u : Nat) : Bool := 0xdc00 ≤ u && u < 0xe000

def consChar (c : Char) (r : List Char × List Char) : List Char × List Char := (c :: r.1, r.2)

/--
The characters of a string up to its closing quote, and what follows it.  A surrogate is accepted
only as half of a pair, and a control character only escaped.
-/
def takeString : List Char → Option (List Char × List Char)
  | [] => none
  | '"' :: rest => some ([], rest)
  | '\\' :: 'u' :: a :: b :: c :: d :: rest =>
    match unit? a b c d with
    | none => none
    | some u =>
      if isHighSurrogate u then
        match rest with
        | '\\' :: 'u' :: e :: f :: g :: h :: rest =>
          match unit? e f g h with
          | none => none
          | some v =>
            if isLowSurrogate v then
              (takeString rest).map
                (consChar (Char.ofNat (0x10000 + (u - 0xd800) * 0x400 + (v - 0xdc00))))
            else none
        | _ => none
      else if isLowSurrogate u then none
      else (takeString rest).map (consChar (Char.ofNat u))
  | '\\' :: e :: rest =>
    match escaped? e with
    | none => none
    | some c => (takeString rest).map (consChar c)
  | c :: rest => if c.toNat < 0x20 then none else (takeString rest).map (consChar c)

/-! ## Numbers -/

def isNumeric (c : Char) : Bool :=
  c.isDigit || c = '-' || c = '+' || c = '.' || c = 'e' || c = 'E'

def finite? (d : Double) : Option Json := if d.isFinite then some (.float d) else none

/-- An integer: a float outside 64 bits, and for a negative zero. -/
def integer? (negative : Bool) (n : Nat) : Option Json :=
  let value : Int := if negative then -(n : Int) else n
  if negative ∧ n = 0 then finite? (Double.ofParts true 0)
  else if Int64.minValue.toInt ≤ value ∧ value ≤ Int64.maxValue.toInt then
    some (.int (Int64.ofInt value))
  else finite? ((Decimal.mk n 0).toDouble negative)

def scaled? (negative : Bool) (whole places rest : List Char) : Option Json :=
  match rest with
  | [] => finite? ((Numeral.decimal whole places 0).toDouble negative)
  | c :: rest =>
    if c = 'e' ∨ c = 'E' then
      (Numeral.exponent? rest).bind fun e =>
        finite? ((Numeral.decimal whole places e).toDouble negative)
    else none

/-- A number: no leading zeros, and digits on both sides of a point. -/
def number? (cs : List Char) : Option Json :=
  let (negative, rest) := Numeral.takeMinus cs
  let (whole, rest) := Numeral.takeDigits rest
  if whole.isEmpty || (whole.head? = some '0' && 1 < whole.length) then none
  else match rest with
    | [] => integer? negative (Numeral.digitsValue whole)
    | '.' :: rest =>
      let (places, rest) := Numeral.takeDigits rest
      if places.isEmpty then none else scaled? negative whole places rest
    | rest => scaled? negative whole [] rest

/-! ## Cutting -/

def next? (c : Char) (rest : List Char) : Option (Token × List Char) :=
  if c = '[' then some (openArray, rest)
  else if c = ']' then some (closeArray, rest)
  else if c = '\x7b' then some (openObject, rest)
  else if c = '\x7d' then some (closeObject, rest)
  else if c = ',' then some (comma, rest)
  else if c = ':' then some (colon, rest)
  else if c = '"' then
    (takeString rest).map fun (s, rest) => (scalar (.string (String.ofList s)), rest)
  else if c = 'n' then
    (Text.strip? rest ['u', 'l', 'l']).map fun rest => (scalar .null, rest)
  else if c = 't' then
    (Text.strip? rest ['r', 'u', 'e']).map fun rest => (scalar (.bool true), rest)
  else if c = 'f' then
    (Text.strip? rest ['a', 'l', 's', 'e']).map fun rest => (scalar (.bool false), rest)
  else
    (number? (c :: rest.takeWhile isNumeric)).map fun j => (scalar j, rest.dropWhile isNumeric)

theorem map_consChar_eq_some {r : Option (List Char × List Char)} {c : Char} {s rest : List Char}
    (h : r.map (consChar c) = some (s, rest)) : ∃ s', r = some (s', rest) := by
  obtain ⟨⟨s', rest'⟩, hr, he⟩ := Option.map_eq_some_iff.1 h
  cases he
  exact ⟨s', hr⟩

theorem takeString_length {cs s rest : List Char} (h : takeString cs = some (s, rest)) :
    rest.length < cs.length := by
  fun_induction takeString cs generalizing s with
  | case2 => cases h; exact Nat.lt_succ_self _
  | case5 a b c d u _ _ e f g h' rest' v _ _ ih =>
    obtain ⟨s', hs⟩ := map_consChar_eq_some h
    have := ih hs
    simp only [List.length_cons]
    omega
  | case9 a b c d rest' u _ _ _ ih =>
    obtain ⟨s', hs⟩ := map_consChar_eq_some h
    have := ih hs
    simp only [List.length_cons]
    omega
  | case11 e rest' _ c _ ih =>
    obtain ⟨s', hs⟩ := map_consChar_eq_some h
    have := ih hs
    simp only [List.length_cons]
    omega
  | case13 c rest' _ _ _ _ ih =>
    obtain ⟨s', hs⟩ := map_consChar_eq_some h
    have := ih hs
    simp only [List.length_cons]
    omega
  | _ => cases h

theorem next?_length {c : Char} {cs rest : List Char} {t : Token}
    (h : next? c cs = some (t, rest)) : rest.length ≤ cs.length := by
  unfold next? at h
  -- six brackets and separators, a string, three words, and else a number
  iterate 6
    split at h
    · cases h
      exact Nat.le_refl _
  split at h
  · obtain ⟨⟨s, r⟩, hs, heq⟩ := Option.map_eq_some_iff.1 h
    simp only [Prod.mk.injEq] at heq
    obtain ⟨_, rfl⟩ := heq
    exact Nat.le_of_lt (takeString_length hs)
  iterate 3
    split at h
    · obtain ⟨r, hs, heq⟩ := Option.map_eq_some_iff.1 h
      simp only [Prod.mk.injEq] at heq
      obtain ⟨_, rfl⟩ := heq
      exact Text.strip?_length hs
  obtain ⟨j, _, heq⟩ := Option.map_eq_some_iff.1 h
  simp only [Prod.mk.injEq] at heq
  obtain ⟨_, rfl⟩ := heq
  exact (List.dropWhile_suffix isNumeric).length_le

def scan? : List Char → Option (List Token)
  | [] => some []
  | c :: cs =>
    if isSpace c then scan? cs
    else match _h : next? c cs with
      | none => none
      | some (t, rest) => (scan? rest).map (t :: ·)
termination_by cs => cs.length
decreasing_by
  · simp
  · have := next?_length _h
    simp only [List.length_cons]
    omega

end Token

end Json

end GraphQuery
