import GraphQuery.Flow.Replay
import Mathlib.Order.Bounds.Basic
/-!
# Readers of one replay

Any number of readers read one replay, each at its own pace, in any order.  What a reader is answered
depends on how often it has asked and on nothing else, and the source is asked only for what no reader
has read yet (`Sharing.run_ofSource`).
-/

namespace GraphQuery

namespace Replay

variable {α : Type} {r : Replay α} {p : Nat}

/-! ## One read -/

def elements (r : Replay α) : List α := r.exhaust.buffer

theorem elements_of_exhausted (h : r.exhausted = true) : r.elements = r.buffer := by
  rw [elements, exhaust, if_pos h]

theorem elements_of_not_exhausted (h : ¬ r.exhausted = true) :
    r.elements = r.buffer ++ r.source.remaining := by
  rw [elements, exhaust, if_neg h]

theorem read_cases (r : Replay α) (p : Nat) :
    (∃ a, r.buffer[p]? = some a ∧ r.read p = ⟨some a, p + 1, r⟩) ∨
    (r.buffer[p]? = none ∧ r.exhausted = true ∧ r.read p = ⟨none, p, r⟩) ∨
    (∃ a rest, r.buffer[p]? = none ∧ ¬ r.exhausted = true ∧ r.source.remaining = a :: rest ∧
      r.read p = ⟨some a, p + 1,
        { r with buffer := r.buffer ++ [a], source := ⟨rest, r.source.given + 1, r.source.ended⟩ }⟩) ∨
    (r.buffer[p]? = none ∧ ¬ r.exhausted = true ∧ r.source.remaining = [] ∧
      r.read p = ⟨none, p,
        { r with source := ⟨[], r.source.given, r.source.ended + 1⟩, exhausted := true }⟩) := by
  unfold read
  cases hb : r.buffer[p]? with
  | some a => exact .inl ⟨a, rfl, rfl⟩
  | none =>
    by_cases he : r.exhausted = true
    · exact .inr (.inl ⟨rfl, he, by simp [he]⟩)
    · cases hs : r.source.remaining with
      | nil => exact .inr (.inr (.inr ⟨rfl, he, rfl, by simp [he, Source.ask, hs]⟩))
      | cons a rest => exact .inr (.inr (.inl ⟨a, rest, rfl, he, rfl, by simp [he, Source.ask, hs]⟩))

theorem exhaust_read (r : Replay α) (p : Nat) : (r.read p).replay.exhaust = r.exhaust := by
  obtain ⟨a, -, h⟩ | ⟨-, -, h⟩ | ⟨a, rest, -, he, hs, h⟩ | ⟨-, he, hs, h⟩ := read_cases r p
  · rw [h]
  · rw [h]
  · simp [h, exhaust, he, hs, Nat.add_assoc, Nat.add_comm 1]
  · simp [h, exhaust, he, hs]

theorem length_buffer (hp : p ≤ r.size) (hb : r.buffer[p]? = none) : r.buffer.length = p :=
  Nat.le_antisymm (List.getElem?_eq_none_iff.1 hb) hp

/-- **A read is answered with the element at its position**, whoever read before. -/
theorem element_read (hp : p ≤ r.size) : (r.read p).element = r.elements[p]? := by
  have hbehind (ys : List α) (hb : r.buffer[p]? = none) : (r.buffer ++ ys)[p]? = ys[0]? := by
    rw [List.getElem?_append_right (length_buffer hp hb).le, length_buffer hp hb, Nat.sub_self]
  obtain ⟨a, hb, h⟩ | ⟨hb, he, h⟩ | ⟨a, rest, hb, he, hs, h⟩ | ⟨hb, he, hs, h⟩ := read_cases r p
  · by_cases he : r.exhausted = true
    · rw [h, elements_of_exhausted he, hb]
    · obtain ⟨hlt, -⟩ := List.getElem?_eq_some_iff.1 hb
      rw [h, elements_of_not_exhausted he, List.getElem?_append_left hlt, hb]
  · rw [h, elements_of_exhausted he, hb]
  · rw [h, elements_of_not_exhausted he, hbehind _ hb, hs]
    rfl
  · rw [h, elements_of_not_exhausted he, hbehind _ hb, hs]
    rfl

theorem position_read (r : Replay α) (p : Nat) :
    (r.read p).position = if (r.read p).element.isSome then p + 1 else p := by
  obtain ⟨a, -, h⟩ | ⟨-, -, h⟩ | ⟨a, rest, -, -, -, h⟩ | ⟨-, -, -, h⟩ := read_cases r p <;> simp [h]

theorem size_read (hp : p ≤ r.size) : (r.read p).replay.size = max r.size (r.read p).position := by
  obtain ⟨a, hb, h⟩ | ⟨-, -, h⟩ | ⟨a, rest, hb, -, -, h⟩ | ⟨-, -, -, h⟩ := read_cases r p
  · obtain ⟨hlt, -⟩ := List.getElem?_eq_some_iff.1 hb
    rw [h]
    exact (Nat.max_eq_left hlt).symm
  · rw [h]
    exact (Nat.max_eq_left hp).symm
  · have hend : r.size = p := length_buffer hp hb
    rw [h, hend, Nat.max_eq_right (Nat.le_succ p), ← hend]
    exact List.length_append
  · rw [h]
    exact (Nat.max_eq_left hp).symm

theorem replay_read_of_none (h : (r.read p).element = none) : (r.read p).replay = r.exhaust := by
  obtain ⟨a, -, hr⟩ | ⟨-, he, hr⟩ | ⟨a, rest, -, -, -, hr⟩ | ⟨-, he, hs, hr⟩ := read_cases r p
  · rw [hr] at h
    cases h
  · rw [hr, exhaust, if_pos he]
  · rw [hr] at h
    cases h
  · rw [hr, exhaust, if_neg he, hs, List.append_nil]
    rfl

theorem read_of_exhausted (h : r.exhausted = true) (p : Nat) : (r.read p).replay = r := by
  obtain ⟨a, -, hr⟩ | ⟨-, -, hr⟩ | ⟨a, rest, -, he, -, -⟩ | ⟨-, he, -, -⟩ := read_cases r p
  · rw [hr]
  · rw [hr]
  · exact absurd h he
  · exact absurd h he

/-! ## What the source is asked for -/

/-- How a replay stands to the elements of its source: those it was given are in the buffer. -/
structure Accounts (xs : List α) (r : Replay α) : Prop where
  buffer : r.buffer = xs.take r.source.given
  remaining : r.source.remaining = xs.drop r.source.given
  given : r.source.given ≤ xs.length
  ended : r.source.ended = if r.exhausted then 1 else 0
  exhausted : r.exhausted = true → r.source.given = xs.length

variable {xs : List α}

theorem accounts_ofSource (xs : List α) : (ofSource xs).Accounts xs :=
  ⟨rfl, rfl, Nat.zero_le _, rfl, fun h => by cases h⟩

theorem Accounts.elements (h : r.Accounts xs) : r.elements = xs := by
  by_cases he : r.exhausted = true
  · rw [elements_of_exhausted he, h.buffer, h.exhausted he, List.take_length]
  · rw [elements_of_not_exhausted he, h.buffer, h.remaining, List.take_append_drop]

/-- **A read takes at most one element from the source**, the next one. -/
theorem Accounts.read (h : r.Accounts xs) (p : Nat) : (r.read p).replay.Accounts xs := by
  obtain ⟨a, -, hr⟩ | ⟨-, -, hr⟩ | ⟨a, rest, -, he, hs, hr⟩ | ⟨-, he, hs, hr⟩ := read_cases r p
  · rw [hr]
    exact h
  · rw [hr]
    exact h
  · have hdrop : xs.drop r.source.given = a :: rest := h.remaining.symm.trans hs
    have hlt : r.source.given < xs.length := Nat.lt_of_not_le fun hle => by
      rw [List.drop_eq_nil_of_le hle] at hdrop
      cases hdrop
    obtain ⟨ha, hrest⟩ := List.cons.inj ((List.drop_eq_getElem_cons hlt).symm.trans hdrop)
    rw [hr]
    exact
      { buffer := by rw [h.buffer, ← ha, List.take_append_getElem hlt]
        remaining := hrest.symm
        given := hlt
        ended := h.ended
        exhausted := fun hex => absurd hex he }
  · have hend : r.source.given = xs.length :=
      h.given.antisymm (List.drop_eq_nil_iff.1 (h.remaining.symm.trans hs))
    rw [hr]
    exact
      { buffer := h.buffer
        remaining := hs.symm.trans h.remaining
        given := h.given
        ended := by rw [h.ended, if_neg he]; rfl
        exhausted := fun _ => hend }

/-! ## Readers -/

/-- A reader of a replay, with the answers that it was given, the oldest first. -/
structure Reader (α : Type) where
  position : Nat := 0
  answers : List (Option α) := []

def Reader.received (c : Reader α) : List α := c.answers.filterMap id

structure Reader.Follows (xs : List α) (c : Reader α) : Prop where
  answers : c.answers = (List.range c.answers.length).map (xs[·]?)
  position : c.position = min c.answers.length xs.length

theorem filterMap_range_getElem? (xs : List α) (n : Nat) :
    (List.range n).filterMap (xs[·]?) = xs.take n := by
  induction n with
  | zero => rfl
  | succ n ih =>
    rw [List.range_succ, List.filterMap_append, ih, List.take_add_one]
    cases h : xs[n]? <;> simp [h]

theorem Reader.Follows.length_received {c : Reader α} (h : c.Follows xs) :
    c.received.length = c.position := by
  rw [received, h.answers, List.filterMap_map, Function.id_comp, filterMap_range_getElem?,
    List.length_take, h.position]

/-- **The next answer to a reader is the next element**, or nothing behind the last. -/
theorem Reader.Follows.element {c : Reader α} (h : c.Follows xs) (ha : r.Accounts xs)
    (hp : c.position ≤ r.size) : (r.read c.position).element = xs[c.answers.length]? := by
  rw [element_read hp, ha.elements, h.position]
  obtain hn | hn := Nat.le_total c.answers.length xs.length
  · rw [Nat.min_eq_left hn]
  · rw [Nat.min_eq_right hn, List.getElem?_eq_none le_rfl, List.getElem?_eq_none hn]

theorem Reader.Follows.next {c : Reader α} (h : c.Follows xs) (ha : r.Accounts xs)
    (hp : c.position ≤ r.size) : Reader.Follows xs
      ⟨(r.read c.position).position, c.answers ++ [(r.read c.position).element]⟩ := by
  have helement := h.element ha hp
  have hlength : (c.answers ++ [xs[c.answers.length]?]).length = c.answers.length + 1 :=
    List.length_append
  rw [helement]
  refine ⟨?_, ?_⟩
  · rw [hlength, List.range_succ, List.map_append, ← h.answers]
    rfl
  · rw [hlength, position_read, helement, h.position]
    obtain hn | hn := Nat.lt_or_ge c.answers.length xs.length
    · rw [List.getElem?_eq_getElem hn, Nat.min_eq_left hn.le, Nat.min_eq_left hn]
      rfl
    · rw [List.getElem?_eq_none hn, Nat.min_eq_right hn, Nat.min_eq_right (Nat.le_succ_of_le hn)]
      rfl

/-- What can be done with a replay.  A copy of it shares all that was read, so it is the same replay. -/
inductive Use where
  | copy
  | iter
  | next (reader : Nat)
  | toList

structure Sharing (α : Type) where
  replay : Replay α
  readers : List (Reader α) := []

namespace Sharing

/-- A list of all elements is what a new reader is answered until the end. -/
def step (s : Sharing α) : Use → Sharing α
  | .copy => s
  | .iter => { s with readers := s.readers ++ [{}] }
  | .next i =>
    match s.readers[i]? with
    | none => s
    | some c =>
      let read := s.replay.read c.position
      ⟨read.replay, s.readers.set i ⟨read.position, c.answers ++ [read.element]⟩⟩
  | .toList =>
    let all := s.replay.exhaust
    ⟨all, s.readers ++ [⟨all.size, all.buffer.map some ++ [none]⟩]⟩

def run (s : Sharing α) (uses : List Use) : Sharing α := uses.foldl step s

variable {s : Sharing α}

theorem step_next_concat (r : Replay α) (cs : List (Reader α)) (c : Reader α) :
    (⟨r, cs ++ [c]⟩ : Sharing α).step (.next cs.length) = ⟨(r.read c.position).replay,
      cs ++ [⟨(r.read c.position).position, c.answers ++ [(r.read c.position).element]⟩]⟩ := by
  simp [step]

theorem run_nexts {n : Nat} {r : Replay α} {cs : List (Reader α)} {c : Reader α}
    (hp : c.position ≤ r.size) (hn : c.position + n = r.elements.length) :
    (⟨r, cs ++ [c]⟩ : Sharing α).run (List.replicate (n + 1) (.next cs.length)) =
      ⟨r.exhaust, cs ++ [⟨r.exhaust.size,
        c.answers ++ ((r.elements.drop c.position).map some ++ [none])⟩]⟩ := by
  -- on what the reader has left, since neither it nor the replay stays the same
  induction n generalizing r c with
  | zero =>
    rw [Nat.add_zero] at hn
    have hend : (r.read c.position).element = none := by
      rw [element_read hp]
      exact List.getElem?_eq_none hn.ge
    have hposition : (r.read c.position).position = r.exhaust.size := by
      rw [position_read, hend]
      exact hn
    rw [List.replicate_one, run, List.foldl_cons, step_next_concat, hposition, hend,
      replay_read_of_none hend, List.drop_eq_nil_of_le hn.ge]
    rfl
  | succ n ih =>
    have hlt : c.position < r.elements.length := by omega
    have ha : (r.read c.position).element = some r.elements[c.position] := by
      rw [element_read hp]
      exact List.getElem?_eq_getElem hlt
    have hposition : (r.read c.position).position = c.position + 1 := by
      rw [position_read, ha]
      rfl
    have hsize : c.position + 1 ≤ (r.read c.position).replay.size := by
      rw [size_read hp, hposition]
      exact Nat.le_max_right _ _
    have helements : (r.read c.position).replay.elements = r.elements :=
      congrArg buffer (exhaust_read r c.position)
    have hn' : c.position + 1 + n = (r.read c.position).replay.elements.length := by
      rw [helements]
      omega
    rw [List.replicate_succ, run, List.foldl_cons, step_next_concat, hposition, ha, ← run,
      ih (c := ⟨c.position + 1, c.answers ++ [some r.elements[c.position]]⟩) hsize hn', helements,
      exhaust_read, List.drop_eq_getElem_cons hlt, List.append_assoc]
    rfl

/-- **Listing a replay is reading it to its end.** -/
theorem step_toList (s : Sharing α) : s.step .toList =
    s.run (.iter :: List.replicate (s.replay.elements.length + 1) (.next s.readers.length)) :=
  (run_nexts (c := ({} : Reader α)) (Nat.zero_le _) (Nat.zero_add _)).symm

/-! ## The invariant of all uses -/

/--
How a replay and its readers stand to the elements of the source: each reader was answered with them
in order and then with nothing, none is ahead of the buffer, and one is at its end.
-/
structure Follows (xs : List α) (s : Sharing α) : Prop where
  accounts : s.replay.Accounts xs
  readers : ∀ c ∈ s.readers, c.Follows xs
  behind : ∀ c ∈ s.readers, c.position ≤ s.replay.size
  ahead : s.replay.size = 0 ∨ ∃ c ∈ s.readers, c.position = s.replay.size

theorem Follows.iter (h : s.Follows xs) : (s.step .iter).Follows xs where
  accounts := h.accounts
  readers := List.forall_mem_append.2 ⟨h.readers, List.forall_mem_singleton.2 ⟨rfl, rfl⟩⟩
  behind := List.forall_mem_append.2 ⟨h.behind, List.forall_mem_singleton.2 (Nat.zero_le _)⟩
  ahead := h.ahead.imp_right fun ⟨c, hc, hp⟩ => ⟨c, List.mem_append_left _ hc, hp⟩

theorem mem_set_of_ne {β : Type} {bs : List β} {i : Nat} {b c c' : β} (hc : bs[i]? = some c)
    (hb : b ∈ bs) (hne : b ≠ c) : b ∈ bs.set i c' := by
  obtain ⟨j, hj⟩ := List.mem_iff_getElem?.1 hb
  have hij : i ≠ j := by
    rintro rfl
    exact hne (Option.some.inj (hj.symm.trans hc))
  exact List.mem_iff_getElem?.2 ⟨j, (List.getElem?_set_ne hij).trans hj⟩

theorem Follows.next (h : s.Follows xs) (i : Nat) : (s.step (.next i)).Follows xs := by
  cases hc : s.readers[i]? with
  | none =>
    rw [step, hc]
    exact h
  | some c =>
    have hmem := List.mem_of_getElem? hc
    have hbehind := h.behind c hmem
    have hsize := size_read hbehind
    have hle : c.position ≤ (s.replay.read c.position).position := by
      rw [position_read]
      split <;> omega
    simp only [step, hc]
    refine ⟨h.accounts.read c.position, fun b hb => ?_, fun b hb => ?_, ?_⟩
    · obtain hb | rfl := List.mem_or_eq_of_mem_set hb
      · exact h.readers b hb
      · exact (h.readers c hmem).next h.accounts hbehind
    · rw [hsize]
      obtain hb | rfl := List.mem_or_eq_of_mem_set hb
      · exact (h.behind b hb).trans (Nat.le_max_left _ _)
      · exact Nat.le_max_right _ _
    -- the reader at the end of the buffer is another one, unless this one is there now
    · rw [hsize]
      obtain hlt | hge := Nat.lt_or_ge (s.replay.read c.position).position s.replay.size
      · rw [Nat.max_eq_left hlt.le]
        obtain h0 | ⟨b, hb, hp⟩ := h.ahead
        · omega
        · exact .inr ⟨b, mem_set_of_ne hc hb (by rintro rfl; omega), hp⟩
      · rw [Nat.max_eq_right hge]
        exact .inr ⟨_, List.mem_set (List.getElem?_eq_some_iff.1 hc).1 _, rfl⟩

theorem Follows.nexts (h : s.Follows xs) (i n : Nat) :
    (s.run (List.replicate n (.next i))).Follows xs := by
  induction n generalizing s with
  | zero => exact h
  | succ n ih => exact ih (h.next i)

theorem Follows.toList (h : s.Follows xs) : (s.step .toList).Follows xs := by
  rw [step_toList]
  exact h.iter.nexts _ _

/-- **No use breaks the order** in which readers are answered. -/
theorem Follows.step (h : s.Follows xs) (use : Use) : (s.step use).Follows xs := by
  cases use with
  | copy => exact h
  | iter => exact h.iter
  | next i => exact h.next i
  | toList => exact h.toList

theorem Follows.run (h : s.Follows xs) (uses : List Use) : (s.run uses).Follows xs := by
  induction uses generalizing s with
  | nil => exact h
  | cons use rest ih => exact ih (h.step use)

theorem follows_ofSource (xs : List α) : (⟨ofSource xs, []⟩ : Sharing α).Follows xs where
  accounts := accounts_ofSource xs
  readers _ hc := absurd hc List.not_mem_nil
  behind _ hc := absurd hc List.not_mem_nil
  ahead := .inl rfl

theorem replay_run_of_exhausted (h : s.replay.exhausted = true) (uses : List Use) :
    (s.run uses).replay = s.replay := by
  induction uses generalizing s with
  | nil => rfl
  | cons use rest ih =>
    have hstep : (s.step use).replay = s.replay := by
      cases use with
      | copy => rfl
      | iter => rfl
      | next i =>
        rw [step]
        split
        · rfl
        · exact read_of_exhausted h _
      | toList => exact if_pos h
    rw [run, List.foldl_cons, ← run, ih (by rw [hstep]; exact h), hstep]

/--
**Readers of one replay do not depend on each other, and share one pass over the source.**  However
readers come to be and read, the answers to each of them, and the answer it would get next, are the
elements of the source in order and then nothing, and a list of the whole has them all.  The source is
asked once per element and once for its end, no further than the reader that has received most.
-/
theorem run_ofSource (xs : List α) (uses : List Use) :
    let s := (⟨ofSource xs, []⟩ : Sharing α).run uses
    (∀ c ∈ s.readers, c.answers = (List.range c.answers.length).map (xs[·]?) ∧
      (s.replay.read c.position).element = xs[c.answers.length]?) ∧
    s.replay.exhaust.buffer = xs ∧
    (s.replay.source.remaining = xs.drop s.replay.source.given ∧
      s.replay.source.given = s.replay.size ∧ s.replay.source.ended ≤ 1) ∧
    (s.replay.source.ended = 1 → s.replay.source.given = xs.length ∧
      ∀ later, (s.run later).replay.source = s.replay.source) ∧
    IsGreatest (insert 0 {n | ∃ c ∈ s.readers, c.received.length = n}) s.replay.size := by
  intro s
  have h : s.Follows xs := (follows_ofSource xs).run uses
  have hended := h.accounts.ended
  refine ⟨fun c hc => ⟨(h.readers c hc).answers, ?_⟩, h.accounts.elements,
    ⟨h.accounts.remaining, ?_, ?_⟩, fun hone => ?_, ?_, ?_⟩
  · exact (h.readers c hc).element h.accounts (h.behind c hc)
  · rw [size, h.accounts.buffer, List.length_take, Nat.min_eq_left h.accounts.given]
  · rw [hended]
    split <;> omega
  · have hex : s.replay.exhausted = true := by
      by_contra hex
      rw [hended, if_neg hex] at hone
      cases hone
    exact ⟨h.accounts.exhausted hex, fun later => congrArg _ (replay_run_of_exhausted hex later)⟩
  · obtain h0 | ⟨c, hc, hp⟩ := h.ahead
    · exact .inl h0
    · exact .inr ⟨c, hc, (h.readers c hc).length_received.trans hp⟩
  · rintro n (rfl | ⟨c, hc, rfl⟩)
    · exact Nat.zero_le _
    · exact (h.readers c hc).length_received.trans_le (h.behind c hc)

end Sharing

end Replay

end GraphQuery
