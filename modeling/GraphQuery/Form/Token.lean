import GraphQuery.Form.Basic
import GraphQuery.Form.Fault
import GraphQuery.Number.Numeral
import GraphQuery.Text.Basic
/-!
# The tokens of a query text

A text is cut into parentheses, quotes and atoms.  Blanks and commas separate tokens, except that a
comma inside a number groups digits.  Every token carries the stretch of text it was cut from; a
cut takes at least one character and returns what is left (`Lexeme.cut_append`).
-/

namespace GraphQuery

inductive TokenKind where
  | opening
  | closing
  | quote
  | atom (a : Atom)
deriving DecidableEq

def TokenKind.name : TokenKind → String
  | opening => "'('"
  | closing => "')'"
  | quote => "'''"
  | atom (.symbol s) => "symbol '" ++ s ++ "'"
  | atom (.string s) => "string \"" ++ s ++ "\""
  | atom (.int i) => "number " ++ toString i.toInt
  | atom (.float d) => "number " ++ FloatFormat.plain.render d

structure Token where
  kind : TokenKind
  span : Span
deriving DecidableEq

structure Tokens where
  list : List Token
  finish : Position

namespace Lexeme

/-! ## Character classes -/

def isSeparator (c : Char) : Bool := isBlank c || c = ','

def endsAtom (c : Char) : Bool :=
  isBlank c || c = '(' || c = ')' || c = '"' || c = '\'' || c = ','

/-- Whether an atom is a number, by its first one or two characters. -/
def isNumber : List Char → Bool
  | '-' :: c :: _ => c.isDigit
  | c :: _ => c.isDigit
  | [] => false

/-- The characters that continue an atom; in a number, commas do. -/
def continues (number : Bool) (c : Char) : Bool := !endsAtom c || (number && c = ',')

/-! ## Atoms -/

/-- The value of a number's text, in which commas and underscores only group digits. -/
def number? (cs : List Char) : Option Atom :=
  let cleaned := cs.filter fun c => c != ',' && c != '_'
  if cleaned.any fun c => c = '.' || c = 'e' || c = 'E' then
    (Numeral.double? cleaned).map .float
  else (Numeral.int64? cleaned).map .int

/-- The atom of a text, whose trailing commas are separators. -/
def atom (cs : List Char) : Except SyntaxFault TokenKind :=
  let text := Text.dropEnd (· = ',') cs
  if isNumber text then
    match number? text with
    | some a => .ok (.atom a)
    | none => .error (.badNumber (String.ofList text))
  else .ok (.atom (.symbol (String.ofList text)))

def unescape (c : Char) : Char :=
  if c = 'n' then '\n' else if c = 't' then '\t' else c

inductive StringEnd where
  | closed (value raw rest : List Char)
  | unclosed
  | dangling

def StringEnd.cons (value : Char) (raw : List Char) : StringEnd → StringEnd
  | closed v r rest => closed (value :: v) (raw ++ r) rest
  | e => e

def takeString : List Char → StringEnd
  | [] => .unclosed
  | '"' :: rest => .closed [] ['"'] rest
  | '\\' :: [] => .dangling
  | '\\' :: c :: rest => (takeString rest).cons (unescape c) ['\\', c]
  | c :: rest => (takeString rest).cons c [c]

/-! ## Cutting -/

inductive Cut where
  | token (kind : TokenKind) (raw rest : List Char)
  | fault (fault : SyntaxFault) (raw : List Char)
  | faultAtEnd (fault : SyntaxFault)

def cut (c : Char) (cs : List Char) : Cut :=
  if c = '(' then .token .opening [] cs
  else if c = ')' then .token .closing [] cs
  else if c = '\'' then .token .quote [] cs
  else if c = '"' then
    match takeString cs with
    | .closed value raw rest => .token (.atom (.string (String.ofList value))) raw rest
    | .unclosed => .fault .unclosedString cs
    | .dangling => .faultAtEnd .unclosedString
  else
    let keep := continues (isNumber (c :: cs))
    match atom (c :: cs.takeWhile keep) with
    | .ok kind => .token kind (cs.takeWhile keep) (cs.dropWhile keep)
    | .error fault => .fault fault (cs.takeWhile keep)

theorem takeString_append {cs value raw rest : List Char}
    (h : takeString cs = .closed value raw rest) : raw ++ rest = cs := by
  fun_induction takeString cs generalizing value raw with
  | case1 => simp at h
  | case2 r =>
    simp only [StringEnd.closed.injEq] at h
    obtain ⟨_, rfl, rfl⟩ := h
    rfl
  | case3 => simp at h
  | case4 c r ih =>
    cases hr : takeString r <;> simp only [hr, StringEnd.cons, StringEnd.closed.injEq,
      reduceCtorEq] at h
    obtain ⟨_, rfl, rfl⟩ := h
    simp [ih hr]
  | case5 c r _ _ _ ih =>
    cases hr : takeString r <;> simp only [hr, StringEnd.cons, StringEnd.closed.injEq,
      reduceCtorEq] at h
    obtain ⟨_, rfl, rfl⟩ := h
    simp [ih hr]

theorem cut_append {c : Char} {cs raw rest : List Char} {kind : TokenKind}
    (h : cut c cs = .token kind raw rest) : raw ++ rest = cs := by
  unfold cut at h
  split at h
  · simp_all
  split at h
  · simp_all
  split at h
  · simp_all
  split at h
  · split at h <;> simp only [Cut.token.injEq, reduceCtorEq] at h
    rename_i hs
    obtain ⟨_, rfl, rfl⟩ := h
    exact takeString_append hs
  · dsimp only at h
    split at h <;> simp only [Cut.token.injEq, reduceCtorEq] at h
    obtain ⟨_, rfl, rfl⟩ := h
    exact List.takeWhile_append_dropWhile

end Lexeme

namespace Tokens

def cons (t : Token) (ts : Tokens) : Tokens := ⟨t :: ts.list, ts.finish⟩

def scanFrom (p : Position) : List Char → Except SyntaxError Tokens
  | [] => .ok ⟨[], p⟩
  | c :: cs =>
    if Lexeme.isSeparator c then scanFrom (p.advance c) cs
    else match _h : Lexeme.cut c cs with
      | .token kind raw rest =>
        let next := p.after (c :: raw)
        (scanFrom next rest).map (cons ⟨kind, p, next.offset⟩)
      | .fault fault raw => .error ⟨fault, p, (p.after (c :: raw)).offset⟩
      | .faultAtEnd fault => .error ⟨fault, .at (p.after (c :: cs))⟩
termination_by cs => cs.length
decreasing_by
  · simp
  · have := congrArg List.length (Lexeme.cut_append _h)
    simp only [List.length_append] at this
    simp only [List.length_cons]
    omega

def scan (text : String) : Except SyntaxError Tokens := scanFrom {} text.toList

end Tokens

end GraphQuery
