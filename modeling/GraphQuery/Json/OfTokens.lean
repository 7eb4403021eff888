import GraphQuery.Json.Token
/-!
# Reading a JSON document

The reader takes one token at a time and keeps the containers that are still open, the innermost
first.  Its state says what may follow; a token that may not ends the reading.
-/

namespace GraphQuery

namespace Json

inductive Frame where
  | array (before : List Json)
  | object (before : List (String × Json)) (name : String)

/-- What may follow, within the open containers. -/
inductive State where
  | value (stack : List Frame)
  | firstElement (stack : List Frame)
  | firstMember (stack : List Frame)
  | member (before : List (String × Json)) (stack : List Frame)
  | colon (before : List (String × Json)) (name : String) (stack : List Frame)
  | afterElement (before : List Json) (stack : List Frame)
  | afterMember (before : List (String × Json)) (stack : List Frame)
  | finished (j : Json)

namespace State

def complete (j : Json) : List Frame → State
  | [] => finished j
  | .array before :: outer => afterElement (j :: before) outer
  | .object before name :: outer => afterMember ((name, j) :: before) outer

def begin? (stack : List Frame) : Token → Option State
  | .scalar j => some (complete j stack)
  | .openArray => if stack.length < maxDepth then some (firstElement stack) else none
  | .openObject => if stack.length < maxDepth then some (firstMember stack) else none
  | _ => none

def step? : State → Token → Option State
  | value stack, t => begin? stack t
  | firstElement stack, .closeArray => some (complete (array []) stack)
  | firstElement stack, t => begin? (.array [] :: stack) t
  | firstMember stack, .closeObject => some (complete (object []) stack)
  | firstMember stack, .scalar (.string name) => some (colon [] name stack)
  | member before stack, .scalar (.string name) => some (colon before name stack)
  | colon before name stack, .colon => some (value (.object before name :: stack))
  | afterElement before stack, .comma => some (value (.array before :: stack))
  | afterElement before stack, .closeArray => some (complete (array before.reverse) stack)
  | afterMember before stack, .comma => some (member before stack)
  | afterMember before stack, .closeObject => some (complete (ofMembers before.reverse) stack)
  | _, _ => none

def run? (s : State) : List Token → Option State
  | [] => some s
  | t :: rest => (s.step? t).bind (·.run? rest)

end State

def ofTokens? (tokens : List Token) : Option Json :=
  match (State.value []).run? tokens with
  | some (.finished j) => some j
  | _ => none

def parse? (text : String) : Option Json := (Token.scan? text.toList).bind ofTokens?

end Json

end GraphQuery
