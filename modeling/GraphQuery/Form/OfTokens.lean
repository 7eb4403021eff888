import GraphQuery.Form.Token
/-!
# Reading a form

The reader takes the tokens one by one and keeps the lists and quotes that are still open, the
innermost first.  So when the text ends too early, the innermost open list is at hand.
-/

namespace GraphQuery

inductive OpenForm where
  | list (opening : Span) (before : List Form)
  | quote

namespace Form

inductive ReadState where
  | reading (stack : List OpenForm)
  | finished (form : Form)

namespace ReadState

/-- A complete form goes into the innermost unfinished one and may complete that. -/
def complete (f : Form) : List OpenForm → ReadState
  | [] => finished f
  | .quote :: outer => complete (.quote f) outer
  | .list opening before :: outer => reading (.list opening (f :: before) :: outer)

def step : ReadState → Token → Except SyntaxError ReadState
  | finished _, t => .error ⟨.trailing t.kind.name, t.span⟩
  | reading stack, ⟨.opening, span⟩ => .ok (reading (.list span [] :: stack))
  | reading stack, ⟨.quote, _⟩ => .ok (reading (.quote :: stack))
  | reading stack, ⟨.atom a, _⟩ => .ok (complete (.atom a) stack)
  | reading (.list _ before :: outer), ⟨.closing, _⟩ => .ok (complete (.list before.reverse) outer)
  | reading _, ⟨.closing, span⟩ => .error ⟨.strayClose, span⟩

def run : ReadState → List Token → Except SyntaxError ReadState
  | s, [] => .ok s
  | s, t :: ts => (s.step t).bind (·.run ts)

def result (finish : Position) : ReadState → Except SyntaxError Form
  | finished f => .ok f
  | reading (.list opening _ :: _) => .error ⟨.unclosedList, opening⟩
  | reading _ => .error ⟨.missingForm, .at finish⟩

end ReadState

def ofTokens (ts : Tokens) : Except SyntaxError Form :=
  ((ReadState.reading []).run ts.list).bind (·.result ts.finish)

def read (text : String) : Except SyntaxError Form := (Tokens.scan text).bind ofTokens

def parse (text : String) : Except SyntaxError Form := (read text).map expand

end Form

end GraphQuery
