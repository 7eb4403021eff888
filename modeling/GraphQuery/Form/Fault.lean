/-!
# Places in a text, and what can be wrong there
-/

namespace GraphQuery

/-- A place in a text: its offset in UTF-8 bytes, and its line and column counted from one. -/
structure Position where
  offset : Nat := 0
  line : Nat := 1
  column : Nat := 1
deriving DecidableEq

namespace Position

def advance (p : Position) (c : Char) : Position :=
  if c = '\n' then ⟨p.offset + c.utf8Size, p.line + 1, 1⟩
  else ⟨p.offset + c.utf8Size, p.line, p.column + 1⟩

def after (p : Position) (cs : List Char) : Position := cs.foldl advance p

end Position

structure Span where
  start : Position
  stop : Nat
deriving DecidableEq

def Span.at (p : Position) : Span := ⟨p, p.offset⟩

def endOfInput : String := "end of input"

inductive SyntaxFault where
  | unclosedString
  | badNumber (text : String)
  | strayClose
  | missingForm
  | unclosedList
  | trailing (found : String)
deriving DecidableEq

/-- A fault and the stretch of text it concerns. -/
structure SyntaxError where
  fault : SyntaxFault
  span : Span
deriving DecidableEq

namespace SyntaxFault

def found? : SyntaxFault → Option String
  | unclosedString => none
  | badNumber text => some text
  | strayClose => some "')'"
  | missingForm => some endOfInput
  | unclosedList => some endOfInput
  | trailing found => some found

def message : SyntaxFault → String
  | unclosedString => "unterminated string literal"
  | badNumber text => "invalid number literal '" ++ text ++ "'"
  | strayClose => "expected expression, found ')'"
  | missingForm => "unexpected end of input, expected expression"
  | unclosedList => "unterminated list, missing ')'"
  | trailing found => "expected " ++ endOfInput ++ ", found " ++ found

end SyntaxFault

def SyntaxError.message (e : SyntaxError) : String :=
  "Parse error at line " ++ toString e.span.start.line ++ ", column " ++
    toString e.span.start.column ++ ": " ++ e.fault.message

end GraphQuery
