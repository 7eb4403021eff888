import GraphQuery.Json.OfTokens
import GraphQuery.Proofs.Json.Text
/-!
# Reading a JSON text back

The tokens of a document are read as the document with the members of every object sorted, unless it
nests too deep for a reader (`Json.run?_tokens`).  So the text of a document is read as what its
floats are read back as, with sorted members (`Json.parse?_render`).
-/

namespace GraphQuery

namespace Json

mutual

def depth : Json → Nat
  | array js => elementsDepth js + 1
  | object ms => membersDepth ms + 1
  | _ => 0
termination_by structural j => j

def elementsDepth : List Json → Nat
  | [] => 0
  | j :: rest => max j.depth (elementsDepth rest)
termination_by structural js => js

def membersDepth : List (String × Json) → Nat
  | [] => 0
  | (_, j) :: rest => max j.depth (membersDepth rest)
termination_by structural ms => ms

end

mutual

def sorted : Json → Json
  | array js => array (elementsSorted js)
  | object ms => ofMembers (membersSorted ms)
  | j => j
termination_by structural j => j

def elementsSorted : List Json → List Json
  | [] => []
  | j :: rest => j.sorted :: elementsSorted rest
termination_by structural js => js

def membersSorted : List (String × Json) → List (String × Json)
  | [] => []
  | (name, j) :: rest => (name, j.sorted) :: membersSorted rest
termination_by structural ms => ms

end

theorem elementsDepth_le_iff {js : List Json} {n : Nat} :
    elementsDepth js ≤ n ↔ ∀ j ∈ js, j.depth ≤ n := by
  induction js with
  | nil => simp [elementsDepth]
  | cons j rest ih => rw [elementsDepth, Nat.max_le, ih, List.forall_mem_cons]

theorem membersDepth_le_iff {ms : List (String × Json)} {n : Nat} :
    membersDepth ms ≤ n ↔ ∀ m ∈ ms, m.2.depth ≤ n := by
  induction ms with
  | nil => simp [membersDepth]
  | cons m rest ih => rw [membersDepth, Nat.max_le, ih, List.forall_mem_cons]

theorem elementsSorted_eq (js : List Json) : elementsSorted js = js.map sorted := by
  induction js with
  | nil => rfl
  | cons j rest ih => rw [elementsSorted, ih, List.map_cons]

theorem membersSorted_eq (ms : List (String × Json)) :
    membersSorted ms = ms.map fun m => (m.1, m.2.sorted) := by
  induction ms with
  | nil => rfl
  | cons m rest ih => rw [membersSorted, ih, List.map_cons]

namespace State

/-! ## Reading tokens -/

theorem run?_append (s : State) (ts us : List Token) :
    s.run? (ts ++ us) = (s.run? ts).bind (·.run? us) := by
  induction ts generalizing s with
  | nil => rfl
  | cons t ts ih =>
    rw [List.cons_append, run?, run?]
    cases s.step? t with
    | none => rfl
    | some s' => exact ih s'

theorem run?_firstElement (j : Json) (stack : List Frame) (ts : List Token) :
    (firstElement stack).run? (j.tokens ++ ts) =
      (value (.array [] :: stack)).run? (j.tokens ++ ts) := by
  match j with
  | array [] | array (_ :: _) | object [] | object (_ :: _) => rfl
  | null | bool _ | int _ | float _ | string _ => rfl

theorem bind_ite_some {α β : Type} {p : Prop} [Decidable p] (a : α) (f : α → Option β) :
    (if p then some a else none).bind f = if p then f a else none := by
  split <;> rfl

theorem ite_max_le {α : Type} (stack first others : Nat) (o : Option α) :
    (if stack + 1 + first ≤ maxDepth then
      if stack + (others + 1) ≤ maxDepth then o else none else none) =
      if stack + (max first others + 1) ≤ maxDepth then o else none := by
  rw [← ite_and]
  exact if_congr (by omega) rfl rfl

theorem ite_lt {α : Type} {stack inside : Nat} {o o' : Option α}
    (h : stack < maxDepth → o = if stack + (inside + 1) ≤ maxDepth then o' else none) :
    (if stack < maxDepth then o else none) =
      if stack + (inside + 1) ≤ maxDepth then o' else none := by
  split
  · rename_i hlt
    exact h hlt
  · rw [if_neg (by omega)]

mutual

/-- **The tokens of a document are read as the document**, unless it nests too deep. -/
theorem run?_tokens : ∀ (j : Json) (stack : List Frame), stack.length ≤ maxDepth →
    (value stack).run? j.tokens =
      if stack.length + j.depth ≤ maxDepth then some (complete j.sorted stack) else none
  | null, _, h | bool _, _, h | int _, _, h | float _, _, h | string _, _, h => (if_pos h).symm
  | array [], stack, _ => by
    have hopen : (value stack).run? (array []).tokens = if stack.length < maxDepth then
        some (complete (array []) stack) else none := by
      rw [tokens, run?, step?, begin?, bind_ite_some]
      rfl
    rw [hopen]
    rfl
  | array (j :: js), stack, _ => by
    have hopen : (value stack).run? (array (j :: js)).tokens = if stack.length < maxDepth then
        (firstElement stack).run? (j.tokens ++ moreElementTokens js) else none := by
      rw [tokens, run?, step?, begin?, bind_ite_some]
    rw [hopen, depth, elementsDepth, sorted, elementsSorted]
    refine ite_lt fun h => ?_
    have hj := run?_tokens j (.array [] :: stack) h
    rw [run?_firstElement, run?_append, hj, bind_ite_some, complete, run?_moreElementTokens js h,
      List.length_cons, ite_max_le]
    rfl
  | object [], stack, _ => by
    have hopen : (value stack).run? (object []).tokens = if stack.length < maxDepth then
        some (complete (object []) stack) else none := by
      rw [tokens, run?, step?, begin?, bind_ite_some]
      rfl
    rw [hopen]
    rfl
  | object ((name, j) :: ms), stack, _ => by
    have hopen : (value stack).run? (object ((name, j) :: ms)).tokens =
        if stack.length < maxDepth then
          (value (.object [] name :: stack)).run? (j.tokens ++ moreMemberTokens ms) else none := by
      rw [tokens, run?, step?, begin?, bind_ite_some]
      rfl
    rw [hopen, depth, membersDepth, sorted, membersSorted]
    refine ite_lt fun h => ?_
    have hj := run?_tokens j (.object [] name :: stack) h
    rw [run?_append, hj, bind_ite_some, complete, run?_moreMemberTokens ms h, List.length_cons,
      ite_max_le]
    rfl
termination_by structural j => j

theorem run?_moreElementTokens : ∀ (js : List Json) {before : List Json} {stack : List Frame},
    stack.length < maxDepth → (afterElement before stack).run? (moreElementTokens js) =
      if stack.length + (elementsDepth js + 1) ≤ maxDepth then
        some (complete (array (before.reverse ++ elementsSorted js)) stack) else none
  | [], before, stack, h => by
    rw [elementsDepth, elementsSorted, List.append_nil, if_pos (by omega)]
    rfl
  | j :: js, before, stack, h => by
    have hcomma : (afterElement before stack).run? (moreElementTokens (j :: js)) =
        (value (.array before :: stack)).run? (j.tokens ++ moreElementTokens js) := rfl
    have hj := run?_tokens j (.array before :: stack) h
    rw [hcomma, run?_append, hj, bind_ite_some, complete, run?_moreElementTokens js h,
      List.length_cons, ite_max_le, List.reverse_cons, List.append_assoc]
    rfl
termination_by structural js => js

theorem run?_moreMemberTokens : ∀ (ms : List (String × Json)) {before : List (String × Json)}
    {stack : List Frame}, stack.length < maxDepth →
      (afterMember before stack).run? (moreMemberTokens ms) =
        if stack.length + (membersDepth ms + 1) ≤ maxDepth then
          some (complete (ofMembers (before.reverse ++ membersSorted ms)) stack) else none
  | [], before, stack, h => by
    rw [membersDepth, membersSorted, List.append_nil, if_pos (by omega)]
    rfl
  | (name, j) :: ms, before, stack, h => by
    have hcomma : (afterMember before stack).run? (moreMemberTokens ((name, j) :: ms)) =
        (value (.object before name :: stack)).run? (j.tokens ++ moreMemberTokens ms) := rfl
    have hj := run?_tokens j (.object before name :: stack) h
    rw [hcomma, run?_append, hj, bind_ite_some, complete, run?_moreMemberTokens ms h,
      List.length_cons, ite_max_le, List.reverse_cons, List.append_assoc]
    rfl
termination_by structural ms => ms

end

end State

theorem ofTokens?_tokens (j : Json) :
    ofTokens? j.tokens = if j.depth ≤ maxDepth then some j.sorted else none := by
  rw [ofTokens?, State.run?_tokens j [] (Nat.zero_le _), List.length_nil, Nat.zero_add,
    State.complete]
  by_cases h : j.depth ≤ maxDepth
  · rw [if_pos h, if_pos h]
  · rw [if_neg h, if_neg h]

/-- **What is read of the text of a document**: what its floats are read back as, with the members of
every object sorted, and nothing if it nests too deep. -/
theorem parse?_render (j : Json) : parse? j.render =
    j.scanned?.bind fun k => if k.depth ≤ maxDepth then some k.sorted else none := by
  have hscan := scan?_text j Token.endsNumber_nil
  rw [List.append_nil] at hscan
  rw [parse?, render, String.toList_ofList, hscan, Token.scan?]
  cases j.scanned? with
  | none => rfl
  | some k =>
    show ofTokens? (k.tokens ++ []) = _
    rw [List.append_nil, ofTokens?_tokens]
    rfl

end Json

end GraphQuery
