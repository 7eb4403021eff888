import GraphQuery.Flow.Basic
import GraphQuery.Operation.Sample
import GraphQuery.Plan.Basic
import GraphQuery.Text.Basic
import GraphQuery.Value.Order
/-!
# What transforms do to a flow of items

A transform rewrites one flow.  Only sampling uses random words; the others are functions of the
flow alone (`Transform.rewrite`).

Two things about sampling are not described here.  Words are drawn when a transform is put around a
flow, while the program draws them when something is first taken from the sample, and never for a
sample from which nothing is taken, as under a limit of none; so what is drawn later from one supply
may differ.  And where a vector cannot hold the sample, the program stops at that first taking; a flow
has no such event, and holds nothing then.
-/

namespace GraphQuery

/-!
## When a predicate holds

A missing field, or a value that does not compare with its operand, makes a predicate false
whatever its operator.
-/

def Comparison.accepts : Comparison → Ordering → Bool
  | .eq, o => o = .eq
  | .ne, o => o ≠ .eq
  | .lt, o => o = .lt
  | .le, o => o ≠ .gt
  | .gt, o => o = .gt
  | .ge, o => o ≠ .lt

namespace Predicate

def values? (item : Item) : List String → Option (List Value)
  | [] => some []
  | field :: rest => (item.get? field).bind fun v => (values? item rest).map (v :: ·)

def compareFields? (item : Item) : List String → List Value → Option Ordering
  | [field], [operand] => (item.get? field).bind (·.compare? operand)
  | fields, operands => (values? item fields).bind (Value.compareValues? · operands)

def holds (item : Item) : Predicate → Bool
  | compare op fields operands => (compareFields? item fields operands).any op.accepts
  | range field hi lo =>
    (item.get? field).any fun v =>
      (v.compare? lo).any Comparison.ge.accepts && v.compare? hi = some .lt
  | inSet field members =>
    (item.get? field).any fun v => members.any fun m => v.compare? m = some .eq
  | contains field text =>
    ((item.get? field).bind Value.asString?).any fun s => Text.occursIn text.toList s.toList
  | beginsWith field text =>
    ((item.get? field).bind Value.asString?).any fun s => text.toList.isPrefixOf s.toList

end Predicate

/-! ## What transforms do -/

def countField : String := "count"

def groupField : String := ":group"

namespace SortKey

/-- The value an item is sorted by; a missing field sorts as null. -/
def valueOf (key : SortKey) (item : Item) : Value := (item.get? key.field).getD .null

def order (key : SortKey) (a b : Item) : Ordering :=
  match key.direction with
  | .ascending => (key.valueOf a).order (key.valueOf b)
  | .descending => (key.valueOf b).order (key.valueOf a)

def orderAll : List SortKey → Item → Item → Ordering
  | [], _, _ => .eq
  | key :: rest, a, b =>
    match key.order a b with
    | .eq => orderAll rest a b
    | o => o

end SortKey

namespace Item

/-- The bytes that an item takes where it stands: a vector of fields is three words. -/
def bytes : Nat := 24

/-- Whether two items agree on some fields: the same value, or missing in both. -/
def agreeOn (fields : List String) (a b : Item) : Bool :=
  fields.all fun field => b.get? field == a.get? field

/-- The record of a group: the fields its items agree on, and the items. -/
def ofGroup (fields : List String) (first : Item) (group : List Item) : Item :=
  let shared := fields.foldl (fun r field =>
    match first.get? field with
    | some v => r.set field v
    | none => r) (Record.empty : Item)
  shared.set groupField (.list (group.map .record))

def bind (bindings : List Binding) (item : Item) : Item :=
  bindings.foldl (fun r b =>
    match r.get? b.source with
    | some v => r.set b.name v
    | none => r) item

end Item

namespace Transform

def rewrite : Transform → Flow Item → Flow Item
  | limit n offset, f => (f.drop offset).take n
  | sample _, f => f
  | reverse, f => f.defer List.reverse
  | count, f => f.defer fun items => [Record.ofFields [(countField, Value.ofNat items.length)]]
  | filter p, f => f.filter (p.holds ·)
  | project fields, f => f.map (·.project fields)
  | orderBy keys, f => f.defer (stableSort (SortKey.orderAll keys))
  | groupBy fields, f =>
    (f.runs (Item.agreeOn fields)).map fun (first, group) => Item.ofGroup fields first group
  | bind bindings, f => f.map (Item.bind bindings)

def run (t : Transform) (f : Flow Item) (w : Words) : Flow Item × Words :=
  match t with
  | sample k =>
    match Reservoir.sample Item.bytes Words.upTo k f.toList w with
    | some (slots, w) => (f.defer fun _ => slots, w)
    | none => (.ofList [], w)
  | t => (t.rewrite f, w)

end Transform

end GraphQuery
