import GraphQuery.Value.Equality
/-!
# Backends

A backend resolves identifiers to objects and lists the edges that leave one identifier.  It is
asked one call at a time and may look at the calls made before, so a backend whose answers change
over time is one too.
-/

namespace GraphQuery

inductive Corruption where
  | badJson
  | notObject (found : Kind)
deriving DecidableEq

def Corruption.message : Corruption → String
  | badJson => "invalid JSON"
  | notObject found => "expected an object, found " ++ found.name

inductive BackendError where
  | notFound (id : Value)
  | storage (problem : String)
  | corrupt (key : Int64) (problem : Corruption)

def BackendError.message : BackendError → String
  | notFound id => "Object not found: " ++ id.render
  | storage problem => "Storage error: " ++ problem
  | corrupt key problem =>
    "Corrupt record for key " ++ toString key.toInt ++ ": " ++ problem.message

inductive Call where
  | objects (ids : List Value)
  | edges (type : String) (id : Value)

/-- Answers to calls, given the calls made before, the oldest first. -/
structure Backend where
  objects : List Call → List Value → Except BackendError (List Item)
  edges : List Call → String → Value → Except BackendError (List Item)

namespace Backend

def ofFunctions (objects : List Value → Except BackendError (List Item))
    (edges : String → Value → Except BackendError (List Item)) : Backend :=
  ⟨fun _ => objects, fun _ => edges⟩

def each {α β : Type} (f : α → Except BackendError β) : List α → Except BackendError (List β)
  | [] => .ok []
  | a :: rest => (f a).bind fun b => (each f rest).map (b :: ·)

/-! ## Injected faults -/

def objectsFault : String := "obj"

structure Fault where
  what : String
  id : Value

def injected (what : String) : BackendError := .storage ("injected failure at " ++ what)

/-- A backend that fails on some calls before they are asked. -/
def failing (faults : List Fault) (b : Backend) : Backend where
  objects history ids :=
    if faults.any fun f => f.what = objectsFault && ids.contains f.id then
      .error (injected objectsFault)
    else b.objects history ids
  edges history type id :=
    if faults.any fun f => f.what = type && f.id == id then .error (injected type)
    else b.edges history type id

end Backend

/-!
## A graph given by a formula

Object `n` is called `idn`, and its edges of every type lead to `n * stride`, `n * stride + 1` and
so on, the newest first.
-/

structure Formula where
  fanout : Int64 := 3
  stride : Int64 := 10
  age : Option Int64

namespace Formula

def describe (g : Formula) (n : Int64) (item : Item) : Item :=
  (item.set "name" (.string ("id" ++ toString n.toInt))).set "age" (g.age.elim .null .int)

def object (g : Formula) (n : Int64) : Item := g.describe n (Record.ofId (.int n))

def edge (g : Formula) (source k : Int64) : Item :=
  let destination := source * g.stride + k
  g.describe destination ((Record.ofId (.int destination)).set timeField (.int (g.fanout - k)))

def number (id : Value) : Except BackendError Int64 :=
  match id with
  | .int n => .ok n
  | id => .error (.notFound id)

def backend (g : Formula) : Backend :=
  .ofFunctions
    (Backend.each fun id => (number id).map g.object)
    (fun _ id => (number id).map fun source =>
      (List.range g.fanout.toInt.toNat).map fun k => g.edge source (Int64.ofNat k))

end Formula

end GraphQuery
