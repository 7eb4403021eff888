import GraphQuery.Text.Basic
/-!
# Named queries

A book of queries holds their texts under names.  It is read from a source text, in which a line
`;;# name` begins a query, other lines that begin with `;;` are comments, and lines before the
first name are ignored.
-/

namespace GraphQuery

inductive QueryBookFault where
  | emptyName
  | duplicate (name : String)
deriving DecidableEq

def QueryBookFault.message (f : QueryBookFault) : String :=
  "Failed to parse operations in <inline>: " ++
    match f with
    | emptyName => "empty step name after ;;#"
    | duplicate name => "duplicate step '" ++ name ++ "'"

/-- Query texts by name, and the names in the order in which they appeared. -/
structure QueryBook where
  texts : List (String × String) := []
  names : List String := []

namespace QueryBook

def empty : QueryBook := {}

def text? (b : QueryBook) (name : String) : Option String := b.texts.lookup name

def setText (b : QueryBook) (name text : String) : QueryBook :=
  { b with texts := (name, text) :: b.texts.filter fun t => t.1 != name }

def insert (b : QueryBook) (name text : String) : QueryBook :=
  let b := if (b.text? name).isSome then b else { b with names := b.names ++ [name] }
  b.setText name text

/-- Adds a query read from a source; one without text is a name only. -/
def finish (b : QueryBook) (name : String) (body : List Char) : QueryBook :=
  let text := Text.trim body
  let b := if text.isEmpty then b else b.setText name (String.ofList text)
  { b with names := b.names ++ [name] }

/-! ## Reading a source -/

inductive Line where
  | mark (name : List Char)
  | comment
  | body (text : List Char)

def Line.ofText (line : List Char) : Line :=
  let trimmed := Text.trim line
  match Text.strip? trimmed [';', ';', '#'] with
  | some name => .mark (Text.trim name)
  | none => if (Text.strip? trimmed [';', ';']).isSome then .comment else .body line

structure Reading where
  done : QueryBook := {}
  current : Option (String × List Char) := none

namespace Reading

def close (r : Reading) : QueryBook :=
  match r.current with
  | some (name, body) => r.done.finish name body
  | none => r.done

def step (r : Reading) (line : List Char) : Except QueryBookFault Reading :=
  match Line.ofText line with
  | .mark name =>
    let done := r.close
    let name := String.ofList name
    if name.isEmpty then .error .emptyName
    else if (done.text? name).isSome then .error (.duplicate name)
    else .ok ⟨done, some (name, [])⟩
  | .comment => .ok r
  | .body text =>
    .ok { r with current := r.current.map fun (name, body) => (name, body ++ text ++ ['\n']) }

def run (r : Reading) : List (List Char) → Except QueryBookFault Reading
  | [] => .ok r
  | line :: rest => (r.step line).bind (·.run rest)

end Reading

def parse (source : String) : Except QueryBookFault QueryBook :=
  (({} : Reading).run (Text.lines source.toList)).map Reading.close

/-- Adds the queries of a source that have a text. -/
def addAll (b source : QueryBook) : QueryBook :=
  source.names.foldl (fun b name =>
    match source.text? name with
    | some text => b.insert name text
    | none => b) b

end QueryBook

end GraphQuery
