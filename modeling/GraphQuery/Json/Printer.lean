import GraphQuery.Json.Basic
import GraphQuery.Number.Format
/-!
# JSON text

The compact text of a document: no blanks, escapes only where JSON demands them, floats with the
fewest digits that read back.
-/

namespace GraphQuery

namespace Json

def hexDigit (n : Nat) : Char := Nat.digitChar (n % 16)

def escape (c : Char) : List Char :=
  if c = '"' then ['\\', '"']
  else if c = '\\' then ['\\', '\\']
  else if c = '\x08' then ['\\', 'b']
  else if c = '\x0c' then ['\\', 'f']
  else if c = '\n' then ['\\', 'n']
  else if c = '\r' then ['\\', 'r']
  else if c = '\t' then ['\\', 't']
  else if c.toNat < 0x20 then ['\\', 'u', '0', '0', hexDigit (c.toNat / 16), hexDigit c.toNat]
  else [c]

def quote (s : String) : List Char := '"' :: s.toList.flatMap escape ++ ['"']

/-- A float; JSON has no text for infinities and NaNs. -/
def floatText (d : Double) : List Char :=
  if d.isFinite then (FloatFormat.json.render d).toList else ['n', 'u', 'l', 'l']

mutual

def text : Json → List Char
  | null => ['n', 'u', 'l', 'l']
  | bool true => ['t', 'r', 'u', 'e']
  | bool false => ['f', 'a', 'l', 's', 'e']
  | int i => (toString i.toInt).toList
  | float d => floatText d
  | string s => quote s
  | array [] => ['[', ']']
  | array (j :: rest) => '[' :: (j.text ++ moreElements rest)
  | object [] => ['\x7b', '\x7d']
  | object ((name, j) :: rest) => '\x7b' :: (quote name ++ ':' :: (j.text ++ moreMembers rest))
termination_by structural j => j

def moreElements : List Json → List Char
  | [] => [']']
  | j :: rest => ',' :: (j.text ++ moreElements rest)
termination_by structural js => js

def moreMembers : List (String × Json) → List Char
  | [] => ['\x7d']
  | (name, j) :: rest => ',' :: (quote name ++ ':' :: (j.text ++ moreMembers rest))
termination_by structural ms => ms

end

def render (j : Json) : String := String.ofList j.text

end Json

end GraphQuery
