import GraphQuery.Number.Double
/-!
# JSON documents

A document whose objects keep their members sorted by name, each name once.  Names compare by code
point, which is the order of their UTF-8 bytes.
-/

namespace GraphQuery

/-- A JSON document; integers are those of 64 bits, every other number is a float. -/
inductive Json where
  | null
  | bool (value : Bool)
  | int (value : Int64)
  | float (value : Double)
  | string (text : String)
  | array (elements : List Json)
  | object (members : List (String × Json))

namespace Json

instance : Inhabited Json := ⟨null⟩

def insertMember (name : String) (j : Json) : List (String × Json) → List (String × Json)
  | [] => [(name, j)]
  | (n, k) :: rest =>
    match compare name n with
    | .lt => (name, j) :: (n, k) :: rest
    | .eq => (name, j) :: rest
    | .gt => (n, k) :: insertMember name j rest

/-- The object of a member list: sorted by name, and of a repeated name the last member. -/
def ofMembers (members : List (String × Json)) : Json :=
  object (members.foldl (fun sorted (name, j) => insertMember name j sorted) [])

mutual

/-- Equality of documents: floats compare as numbers, and an integer never equals a float. -/
def same : Json → Json → Bool
  | null, null => true
  | bool a, bool b => a == b
  | int a, int b => a == b
  | float a, float b => a.sameNumber b
  | string a, string b => a == b
  | array a, array b => sameElements a b
  | object a, object b => sameMembers a b
  | _, _ => false
termination_by structural j => j

def sameElements : List Json → List Json → Bool
  | [], [] => true
  | a :: as, b :: bs => a.same b && sameElements as bs
  | _, _ => false
termination_by structural js => js

def sameMembers : List (String × Json) → List (String × Json) → Bool
  | [], [] => true
  | (m, a) :: as, (n, b) :: bs => m == n && a.same b && sameMembers as bs
  | _, _ => false
termination_by structural ms => ms

end

instance : BEq Json := ⟨same⟩

end Json

end GraphQuery
