import GraphQuery.Number.Format
/-!
# Query forms

A form is an atom, a list of forms, or a quoted form.  The text of a form can be read back: blanks
separate the elements of a list, and a string escapes quotes and backslashes only.
-/

namespace GraphQuery

inductive Atom where
  | symbol (name : String)
  | string (text : String)
  | int (value : Int64)
  | float (value : Double)
deriving DecidableEq

inductive Form where
  | atom (a : Atom)
  | list (forms : List Form)
  | quote (form : Form)

def Atom.escape (c : Char) : List Char :=
  if c = '\\' then ['\\', '\\'] else if c = '"' then ['\\', '"'] else [c]

def Atom.render : Atom → String
  | symbol name => name
  | string text => String.ofList ('"' :: text.toList.flatMap escape ++ ['"'])
  | int i => toString i.toInt
  | float d => FloatFormat.form.render d

namespace Form

instance : Inhabited Form := ⟨list []⟩

@[match_pattern] abbrev symbol (name : String) : Form := atom (.symbol name)

@[match_pattern] abbrev string (text : String) : Form := atom (.string text)

@[match_pattern] abbrev int (value : Int64) : Form := atom (.int value)

@[match_pattern] abbrev float (value : Double) : Form := atom (.float value)

mutual

def render : Form → String
  | atom a => a.render
  | list fs => "(" ++ renderAll fs ++ ")"
  | quote f => "'" ++ f.render
termination_by structural f => f

def renderAll : List Form → String
  | [] => ""
  | [f] => f.render
  | f :: g :: rest => f.render ++ " " ++ renderAll (g :: rest)
termination_by structural fs => fs

end

def head? : Form → Option String
  | list (symbol name :: _) => some name
  | _ => none

def args : Form → List Form
  | list (_ :: rest) => rest
  | _ => []

def isAtom : Form → Bool
  | list _ => false
  | _ => true

/-- The text of a symbol or a string, where either may stand for a name. -/
def name? : Form → Option String
  | symbol s => some s
  | string s => some s
  | _ => none

def int? : Form → Option Int64
  | int i => some i
  | _ => none

def kind : Form → String
  | list _ => "list"
  | symbol _ => "symbol"
  | string _ => "string"
  | int _ => "number"
  | float _ => "number"
  | quote _ => "quoted form"

/-!
## Pipelines

`(->> a (b c) d)` stands for `(d (b c a))`: each stage takes the form built so far as its last
argument.  Inner pipelines are expanded first, and quoted forms stay as they are.
-/

def pipelineMark : String := "->>"

def stage (acc : Form) : Form → Form
  | list call => list (call ++ [acc])
  | f => list [f, acc]

/-- A list whose elements are expanded already: a pipeline of at least two stages is threaded. -/
def thread : List Form → Form
  | symbol mark :: first :: second :: more =>
    if mark = pipelineMark then (second :: more).foldl stage first
    else list (symbol mark :: first :: second :: more)
  | fs => list fs

mutual

def expand : Form → Form
  | list fs => thread (expandAll fs)
  | atom a => atom a
  | quote f => quote f
termination_by structural f => f

def expandAll : List Form → List Form
  | [] => []
  | f :: rest => f.expand :: expandAll rest
termination_by structural fs => fs

end

end Form

end GraphQuery
