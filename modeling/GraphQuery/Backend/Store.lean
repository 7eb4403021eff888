import GraphQuery.Backend.Basic
import GraphQuery.Json.Convert
import GraphQuery.Json.Printer
import GraphQuery.Json.OfTokens
/-!
# A store of objects and edges

Objects are kept as JSON texts under integer keys.  Edges are kept in the order of their keys, in
which the edges of one type from one source stand together, the newest first, so a lookup starts at
the smallest key they can have and stops at the first edge that is none of them.
-/

namespace GraphQuery

/-- What identifies an edge: adding it again replaces what it says. -/
structure EdgeKey where
  source : Int64
  type : String
  time : Int64
  destination : Int64
deriving DecidableEq

namespace EdgeKey

/-- By source and type, then the newest first, then by destination. -/
def order (a b : EdgeKey) : Ordering :=
  (compare a.source.toInt b.source.toInt).then <|
    (compare a.type b.type).then <|
      (compare b.time.toInt a.time.toInt).then <|
        compare a.destination.toInt b.destination.toInt

def first (source : Int64) (type : String) : EdgeKey := ⟨source, type, .maxValue, .minValue⟩

def insert (key : EdgeKey) (data : String) : List (EdgeKey × String) → List (EdgeKey × String)
  | [] => [(key, data)]
  | (k, d) :: rest =>
    match key.order k with
    | .lt => (key, data) :: (k, d) :: rest
    | .eq => (key, data) :: rest
    | .gt => (k, d) :: insert key data rest

end EdgeKey

structure Store where
  texts : List (Int64 × String) := []
  links : List (EdgeKey × String) := []

namespace Store

def empty : Store := {}

def insertText (s : Store) (key : Int64) (text : String) : Store :=
  { s with texts := (key, text) :: s.texts }

/-- Keeps an object under a key, which becomes its identifier if it has none. -/
def insertObject (s : Store) (key : Int64) (item : Item) : Store :=
  let item := if item.hasId then item else item.set idField (.int key)
  s.insertText key item.toJson.render

def addEdge (s : Store) (key : EdgeKey) (data : String) : Store :=
  { s with links := key.insert data s.links }

def object (s : Store) (id : Value) : Except BackendError Item :=
  match id with
  | .int key =>
    match s.texts.lookup key with
    | none => .error (.notFound id)
    | some text =>
      match Json.parse? text with
      | none => .error (.corrupt key .badJson)
      | some j =>
        match Value.ofJson j with
        | .record item => .ok item
        | v => .error (.corrupt key (.notObject v.kind))
  | id => .error (.notFound id)

/-- The edges from a pair's smallest key on, up to the first one that belongs to another pair. -/
def scan (s : Store) (source : Int64) (type : String) : List (EdgeKey × String) :=
  (s.links.dropWhile fun l => l.1.order (.first source type) = .lt).takeWhile fun l =>
    l.1.source = source && l.1.type = type

def edges (s : Store) (type : String) (id : Value) : Except BackendError (List Item) :=
  match id with
  | .int source =>
    .ok ((s.scan source type).map fun l =>
      Item.edge (.int l.1.destination) l.1.time (.string l.2))
  | id => .error (.notFound id)

def backend (s : Store) : Backend := .ofFunctions (Backend.each s.object) s.edges

end Store

end GraphQuery
