import GraphQuery.Plan.Error
/-!
# Reading arguments

How the arguments of an operator that are not queries are read: counts, names, lists of fields,
sort keys, bindings, and the values of literals.  Each reader says what is wrong with a form it
cannot read; `Argument.inForm` adds the operator and the form it stands in.
-/

namespace GraphQuery

def Form.toValue : Form → Value
  | .symbol s => .string s
  | .string s => .string s
  | .int i => .int i
  | .float d => .float d
  | .quote f => f.toValue
  | .list fs => .list (valuesOfForms fs)
termination_by structural f => f
where
  valuesOfForms : List Form → List Value
    | [] => []
    | f :: rest => f.toValue :: valuesOfForms rest
  termination_by structural fs => fs

namespace Argument

abbrev Read := Except PlanFault

def bad {α : Type} (op : String) (problem : BadArgument) : Read α :=
  .error (.invalidArgument op problem)

def inForm {α : Type} (node : Form) (r : Read α) : Except PlanError α :=
  r.mapError (⟨·, node⟩)

def count (op : String) : Form → Read Nat
  | .int n => if 0 ≤ n.toInt then .ok n.toInt.toNat else bad op (.notCount (.int n))
  | f => bad op (.notCount f)

/-- A name; types of edges are often written as numbers. -/
def name (op : String) : Form → Read String
  | .symbol s => .ok s
  | .string s => .ok s
  | .int i => .ok (toString i.toInt)
  | f => bad op (.notName f)

def text (op : String) : Form → Read String
  | .symbol s => .ok s
  | .string s => .ok s
  | .int i => .ok (toString i.toInt)
  | .float d => .ok (FloatFormat.plain.render d)
  | f => bad op (.notText f)

def all {α : Type} (read : Form → Read α) : List Form → Read (List α)
  | [] => .ok []
  | f :: rest => (read f).bind fun a => (all read rest).map (a :: ·)

def fields (op : String) : Form → Read (List String)
  | .list [] => bad op .noFields
  | .list fs => all (name op) fs
  | f => (name op f).map ([·])

def direction (f : Form) : Read Direction :=
  match f with
  | .symbol s => match Direction.ofKeyword? s with
    | some d => .ok d
    | none => .error (.unknownDirection f)
  | _ => .error (.unknownDirection f)

def sortKey (op : String) : Form → Read SortKey
  | .list [field, way] => (direction way).bind fun d => (name op field).map (⟨·, d⟩)
  | .list _ => bad op .badSortKey
  | f => (name op f).map (⟨·, .descending⟩)

def sortKeys (op : String) : Form → Read (List SortKey)
  | .list [] => bad op .noSortKeys
  | .list fs => all (sortKey op) fs
  | f => (sortKey op f).map ([·])

/-- A name and the source of its value; the identifier cannot be given a value. -/
def binding (op : String) : Form → Read Binding
  | .list [taken, source] =>
    (name op taken).bind fun n =>
      if n = idField then .error (.reservedField n)
      else (name op source).map (⟨n, ·⟩)
  | f => bad op (.badBinding f)

def bindings (op : String) : Form → Read (List Binding)
  | .list [] => bad op .noBindings
  | .list fs => all (binding op) fs
  | _ => bad op .noBindings

end Argument

end GraphQuery
