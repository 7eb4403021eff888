import GraphQuery.Proofs.Operation.Difference
import GraphQuery.Proofs.Value.Hashing
/-!
# The course of a difference

A difference hands out the items of its left operand that equal no item of the right one and none
before them (`SetAlgebra.difference_subtracts`).  It remembers only what it has handed out, and that
is enough because equality is an equivalence (`SetAlgebra.Suffices`): whatever equals a withheld
item is withheld as well.  The right operand is pulled when the left one has handed out its first
item, once.
-/

namespace GraphQuery

namespace Flow

theorem events_next {α : Type} (f : Flow α) : f.events = pulling f.next.pulls ++
    match f.next.next with
    | none => []
    | some (a, rest) => .yield a :: rest.events := by
  obtain ⟨events⟩ := f
  simp only [next]
  induction events with
  | nil => rfl
  | cons e rest ih =>
    cases e with
    | pull source => exact congrArg (Event.pull source :: ·) ih
    | yield a => rfl

end Flow

namespace SetAlgebra

/-! ## What is withheld -/

section

variable {excluded seen before : List Item}

def Suffices (excluded seen before : List Item) : Prop :=
  ∀ a, (excluded.contains a || seen.contains a) = (excluded.contains a || before.contains a)

theorem contains_concat (xs : List Item) (a b : Item) :
    (xs ++ [a]).contains b = (xs.contains b || b == a) := by
  simp [List.contains_eq_any_beq]

theorem Suffices.withheld (h : Suffices excluded seen before) {a : Item}
    (ha : (excluded.contains a || seen.contains a) = true) :
    Suffices excluded seen (before ++ [a]) := by
  intro b
  rw [contains_concat, ← Bool.or_assoc, ← h b]
  cases hb : b == a with
  | false => exact (Bool.or_false _).symm
  | true =>
    rw [List.contains_congr hb, List.contains_congr hb, ha]
    rfl

theorem Suffices.handedOut (h : Suffices excluded seen before) (a : Item) :
    Suffices excluded (a :: seen) (before ++ [a]) := by
  intro b
  rw [contains_concat, List.contains_cons, ← Bool.or_assoc, ← Bool.or_assoc, ← h b, Bool.or_assoc,
    Bool.or_comm (b == a), Bool.or_assoc]

theorem toList_subtractEvents_zipIdx : ∀ (events : List (Event Item)) (asking : List Nat)
    (seen before : List Item), Suffices excluded seen before →
      (⟨subtractEvents excluded asking seen events⟩ : Flow Item).toList =
        (((⟨events⟩ : Flow Item).toList.zipIdx before.length).filter fun x =>
          !excluded.contains x.1 &&
            !((before ++ (⟨events⟩ : Flow Item).toList).take x.2).contains x.1).map Prod.fst
  | [], _, _, _, _ => rfl
  | .pull source :: rest, asking, seen, before, h => by
    rw [subtractEvents, Flow.toList_mk_pull, Flow.toList_mk_pull]
    exact toList_subtractEvents_zipIdx rest asking seen before h
  | .yield a :: rest, asking, seen, before, h => by
    have hrest (seen : List Item) (h : Suffices excluded seen (before ++ [a])) :=
      toList_subtractEvents_zipIdx rest [] seen (before ++ [a]) h
    rw [List.length_append, List.length_singleton] at hrest
    simp only [List.append_assoc, List.singleton_append] at hrest
    rw [subtractEvents, Flow.toList_pulling, Flow.toList_mk_yield, List.zipIdx_cons,
      List.filter_cons, List.take_left, ← Bool.not_or, ← h a]
    cases ha : excluded.contains a || seen.contains a with
    | true => exact hrest seen (h.withheld ha)
    | false => exact congrArg (a :: ·) (hrest (a :: seen) (h.handedOut a))

end

/-! ## When the right operand is pulled -/

theorem pulls_subtractEvents_nil (excluded : List Item) : ∀ (events : List (Event Item))
    (seen : List Item), (⟨subtractEvents excluded [] seen events⟩ : Flow Item).pulls =
      (⟨events⟩ : Flow Item).pulls
  | [], _ => rfl
  | .pull source :: rest, seen => by
    rw [subtractEvents, Flow.pulls_mk_pull, Flow.pulls_mk_pull, pulls_subtractEvents_nil]
  | .yield a :: rest, seen => by
    rw [subtractEvents, Flow.pulls_pulling, Flow.pulls_mk_yield]
    split
    · exact pulls_subtractEvents_nil excluded rest seen
    · exact pulls_subtractEvents_nil excluded rest (a :: seen)

theorem subtractEvents_pulling (excluded : List Item) (asking : List Nat) (seen : List Item)
    (events : List (Event Item)) : ∀ sources : List Nat,
      subtractEvents excluded asking seen (Flow.pulling sources ++ events) =
        Flow.pulling sources ++ subtractEvents excluded asking seen events
  | [] => rfl
  | source :: rest =>
    congrArg (Event.pull source :: ·) (subtractEvents_pulling excluded asking seen events rest)

/--
**A difference is ordered subtraction.**  It hands out, in order, the items of the left flow that
equal no item of the right one and no earlier one of the left.  The right flow is not pulled before
the left one has handed out an item; then all of it is, and never again.  Items are looked for in
tables by their hash, which finds what equality says, whatever the hash.
-/
theorem difference_subtracts (left right : Flow Item) :
    (difference left right).toList =
        (left.toList.zipIdx.filter fun x => !right.toList.contains x.1 &&
          !(left.toList.take x.2).contains x.1).map Prod.fst ∧
      (match left.next.next with
        | none => (difference left right).events = Flow.pulling left.next.pulls
        | some (_, rest) => ∃ course, (difference left right).events =
            Flow.pulling left.next.pulls ++ (Flow.pulling right.pulls ++ course) ∧
              (⟨course⟩ : Flow Item).pulls = rest.pulls) ∧
        ∀ (hash : List Fed → UInt64) (held : List Item) (a : Item),
          Item.found hash held a = held.contains a := by
  refine ⟨toList_subtractEvents_zipIdx left.events right.pulls [] [] fun _ => rfl, ?_,
    fun hash held a => Item.found_eq_contains hash held a⟩
  have hevents := Flow.events_next left
  simp only [difference]
  rw [hevents, subtractEvents_pulling]
  cases left.next.next with
  | none => exact List.append_nil _
  | some x =>
    obtain ⟨a, rest⟩ := x
    refine ⟨_, rfl, ?_⟩
    split
    · exact pulls_subtractEvents_nil right.toList rest.events []
    · exact pulls_subtractEvents_nil right.toList rest.events [a]

end SetAlgebra

end GraphQuery
