import GraphQuery.Flow.Seq
/-!
# Sequences in use

A sequence is asked for one element after another, buffered, or cut, in any order.  However it is
used, it answers what a plain list of its elements answers (`Seq.Follows`), and the pulls it has made
and those it has yet to make are the first ones of its source, in order (`Seq.Within`).  Cutting it
pulls nothing, and buffering it leaves nothing to be pulled (`Seq.InUse.run_start`).
-/

namespace GraphQuery

variable {α : Type}

/-- The elements of a list at the places that `n` divides: the first and every `n`-th one after it. -/
def everyNth (n : Nat) (xs : List α) : List α :=
  (xs.zipIdx.filter fun x => x.2 % n = 0).map Prod.fst

namespace Flow

/-- The flow that hands out what it pulls, every element under a number of its own. -/
def ofNumbered (number : α → Nat) (xs : List α) : Flow α :=
  ⟨xs.flatMap fun a => [.pull (number a), .yield a]⟩

theorem toList_ofNumbered (number : α → Nat) (xs : List α) :
    (ofNumbered number xs).toList = xs := by
  induction xs with
  | nil => rfl
  | cons x xs ih => exact congrArg (x :: ·) ih

theorem pulls_ofNumbered (number : α → Nat) (xs : List α) :
    (ofNumbered number xs).pulls = xs.map number := by
  induction xs with
  | nil => rfl
  | cons x xs ih => exact congrArg (number x :: ·) ih

theorem toList_everyEvents {gap wait : Nat} {events : List (Event α)} {place : Nat}
    (hw : wait ≤ gap) (hp : (place + wait) % (gap + 1) = 0) :
    (⟨everyEvents gap wait events⟩ : Flow α).toList =
      (((⟨events⟩ : Flow α).toList.zipIdx place).filter fun x => x.2 % (gap + 1) = 0).map
        Prod.fst := by
  fun_induction everyEvents gap wait events generalizing place with
  | case1 => rfl
  | case2 wait source rest ih => simpa using ih hw hp
  | case3 a rest ih =>
    have hnext : (place + 1 + gap) % (gap + 1) = 0 := by
      rw [Nat.add_assoc, Nat.add_comm 1, Nat.add_mod_right]
      exact hp
    rw [toList_mk_yield, toList_mk_yield, List.zipIdx_cons, List.filter_cons_of_pos (by simpa using hp),
      List.map_cons, ih (Nat.le_refl gap) hnext]
  | case4 wait a rest ih =>
    have hnot : place % (gap + 1) ≠ 0 := fun h0 => by
      rw [Nat.add_mod, h0, Nat.zero_add, Nat.mod_mod,
        Nat.mod_eq_of_lt (Nat.lt_succ_of_le hw)] at hp
      cases hp
    have hnext : (place + 1 + wait) % (gap + 1) = 0 := by
      rw [Nat.add_assoc, Nat.add_comm 1]
      exact hp
    rw [toList_mk_yield, List.zipIdx_cons, List.filter_cons_of_neg (by simpa using hnot),
      ih (Nat.le_of_succ_le hw) hnext]

theorem toList_every {n : Nat} (hn : 0 < n) (f : Flow α) :
    (f.every n).toList = everyNth n f.toList := by
  have h : (f.every n).toList = (f.toList.zipIdx.filter fun x => x.2 % (n - 1 + 1) = 0).map Prod.fst :=
    toList_everyEvents (Nat.zero_le (n - 1)) (Nat.zero_mod _)
  rwa [Nat.sub_add_cancel hn] at h

theorem pulls_every (n : Nat) (f : Flow α) : (f.every n).pulls = f.pulls := by
  have go (gap wait : Nat) (events : List (Event α)) :
      (⟨everyEvents gap wait events⟩ : Flow α).pulls = (⟨events⟩ : Flow α).pulls := by
    fun_induction everyEvents gap wait events with
    | case1 => rfl
    | case2 wait source rest ih => simpa using ih
    | case3 a rest ih => simpa using ih
    | case4 wait a rest ih => simpa using ih
  exact go _ _ f.events

end Flow

/-! ## Cuts -/

inductive Cut where
  | take (n : Nat)
  | drop (n : Nat)
  | every (n : Nat) (pos : 0 < n)

namespace Cut

def ofFlow : Cut → Flow α → Flow α
  | take n => .take n
  | drop n => .drop n
  | every n _ => .every n

def ofList : Cut → List α → List α
  | take n => .take n
  | drop n => .drop n
  | every n _ => everyNth n

theorem toList_ofFlow (cut : Cut) (f : Flow α) : (cut.ofFlow f).toList = cut.ofList f.toList := by
  cases cut with
  | take n => exact Flow.toList_take n f
  | drop n => exact Flow.toList_drop n f
  | every n pos => exact Flow.toList_every pos f

theorem pulls_ofFlow_prefix (cut : Cut) (f : Flow α) : (cut.ofFlow f).pulls <+: f.pulls := by
  cases cut with
  | take n => exact Flow.pulls_take_prefix n f
  | drop n => exact (Flow.pulls_drop n f) ▸ List.prefix_refl _
  | every n pos => exact (Flow.pulls_every n f) ▸ List.prefix_refl _

end Cut

namespace Seq

/-! ## One use -/

inductive Use where
  | next
  | force
  | apply (cut : Cut)

inductive Answer (α : Type) where
  | element (a : Option α)
  | elements (as : List α)
  | silent

structure Turn (α : Type) where
  answer : Answer α
  pulls : List Nat
  rest : Seq α

def turn (s : Seq α) : Use → Turn α
  | .next => ⟨.element s.next.element, s.next.pulls, s.next.rest⟩
  | .force => ⟨.elements s.force.toList, s.pulls, s.force⟩
  | .apply cut => ⟨.silent, [], s.apply cut.ofFlow⟩

/-- What a use of a plain list answers, and the list that it leaves. -/
def turnOfList (xs : List α) : Use → Answer α × List α
  | .next => (.element xs.head?, xs.tail)
  | .force => (.elements xs, xs)
  | .apply cut => (.silent, cut.ofList xs)

theorem next_eq_list (s : Seq α) :
    s.next.element = s.toList.head? ∧ s.next.rest.toList = s.toList.tail := by
  have hs := toList_next s
  have hend : s.next.element = none → s.next.rest.toList = [] := by
    cases s with
    | buffered xs => cases xs <;> simp [next, toList]
    | lazy f =>
      rw [next]
      rcases f.next with ⟨pulls, _ | ⟨a, rest⟩⟩ <;> simp [toList]
  cases he : s.next.element with
  | none => rw [hs, he, hend he]; exact ⟨rfl, rfl⟩
  | some a => rw [hs, he]; exact ⟨rfl, rfl⟩

theorem pulls_next (s : Seq α) : s.pulls = s.next.pulls ++ s.next.rest.pulls := by
  cases s with
  | buffered xs => cases xs <;> rfl
  | lazy f =>
    rw [pulls, Flow.pulls_next, next]
    rcases f.next with ⟨pulls, _ | ⟨a, rest⟩⟩ <;> rfl

/-- **A use of a sequence answers what it answers on a list**, and leaves what it leaves of it. -/
theorem turn_eq_list (s : Seq α) (u : Use) :
    ((s.turn u).answer, (s.turn u).rest.toList) = turnOfList s.toList u := by
  cases u with
  | next => exact Prod.ext (congrArg Answer.element s.next_eq_list.1) s.next_eq_list.2
  | force => rfl
  | apply cut => exact Prod.ext rfl ((cut.toList_ofFlow s.flow).trans (by rw [s.toList_flow]; rfl))

/-- **A use pulls next what is to be pulled next**, and leaves of the rest its first pulls. -/
theorem pulls_turn_prefix (s : Seq α) (u : Use) :
    (s.turn u).pulls ++ (s.turn u).rest.pulls <+: s.pulls := by
  cases u with
  | next => exact s.pulls_next ▸ List.prefix_refl _
  | force => exact (List.append_nil s.pulls).symm ▸ List.prefix_refl _
  | apply cut => exact s.pulls_flow ▸ cut.pulls_ofFlow_prefix s.flow

theorem pulls_turn_of_not_cut (s : Seq α) {u : Use} (h : ∀ cut, u ≠ .apply cut) :
    (s.turn u).pulls ++ (s.turn u).rest.pulls = s.pulls := by
  cases u with
  | next => exact s.pulls_next.symm
  | force => exact List.append_nil s.pulls
  | apply cut => exact absurd rfl (h cut)

/-! ## All uses -/

/-- A sequence with what it has answered and pulled so far. -/
structure InUse (α : Type) where
  answers : List (Answer α) := []
  pulled : List Nat := []
  rest : Seq α

structure ListInUse (α : Type) where
  answers : List (Answer α) := []
  rest : List α

def ListInUse.use (l : ListInUse α) (u : Use) : ListInUse α :=
  ⟨l.answers ++ [(turnOfList l.rest u).1], (turnOfList l.rest u).2⟩

def ListInUse.run (l : ListInUse α) (uses : List Use) : ListInUse α := uses.foldl use l

/-- How a sequence may start: lazy, in a buffer, or computed as a whole when it is first asked. -/
inductive Start where
  | lazy
  | buffered
  | deferred

def Start.seq (source : Flow α) : Start → Seq α
  | lazy => .lazy source
  | buffered => .buffered source.toList
  | deferred => .deferred source

theorem Start.toList_seq (start : Start) (source : Flow α) :
    (start.seq source).toList = source.toList := by
  cases start with
  | lazy | buffered => rfl
  | deferred => exact Flow.toList_defer id source

theorem Start.pulls_seq {start : Start} (h : start ≠ .buffered) (source : Flow α) :
    (start.seq source).pulls = source.pulls := by
  cases start with
  | lazy => rfl
  | buffered => exact absurd rfl h
  | deferred => exact Flow.pulls_defer id source

theorem Start.pulls_seq_prefix (start : Start) (source : Flow α) :
    (start.seq source).pulls <+: source.pulls := by
  by_cases h : start = .buffered
  · subst h
    exact List.nil_prefix
  · exact pulls_seq h source ▸ List.prefix_refl _

namespace InUse

def use (s : InUse α) (u : Use) : InUse α :=
  ⟨s.answers ++ [(s.rest.turn u).answer], s.pulled ++ (s.rest.turn u).pulls, (s.rest.turn u).rest⟩

def run (s : InUse α) (uses : List Use) : InUse α := uses.foldl use s

variable {s : InUse α} {all : List Nat}

/-- Whether a sequence has answered what a list has, and holds what the list holds. -/
structure Follows (s : InUse α) (l : ListInUse α) : Prop where
  answers : s.answers = l.answers
  rest : s.rest.toList = l.rest

theorem Follows.use {l : ListInUse α} (h : s.Follows l) (u : Use) : (s.use u).Follows (l.use u) := by
  have hu := s.rest.turn_eq_list u
  rw [h.rest] at hu
  have ha : (s.rest.turn u).answer = (turnOfList l.rest u).1 := congrArg Prod.fst hu
  exact ⟨by rw [InUse.use, ListInUse.use, h.answers, ha], congrArg Prod.snd hu⟩

theorem Follows.run {l : ListInUse α} (h : s.Follows l) (uses : List Use) :
    (s.run uses).Follows (l.run uses) := by
  induction uses generalizing s l with
  | nil => exact h
  | cons u rest ih => exact ih (h.use u)

def Within (all : List Nat) (s : InUse α) : Prop := s.pulled ++ s.rest.pulls <+: all

theorem Within.use (h : s.Within all) (u : Use) : (s.use u).Within all := by
  have hu := (List.prefix_append_right_inj s.pulled).2 (s.rest.pulls_turn_prefix u)
  rw [← List.append_assoc] at hu
  exact hu.trans h

theorem Within.run (h : s.Within all) (uses : List Use) : (s.run uses).Within all := by
  induction uses generalizing s with
  | nil => exact h
  | cons u rest ih => exact ih (h.use u)

theorem pulls_run_of_not_cut {uses : List Use} (h : ∀ cut, .apply cut ∉ uses) (s : InUse α) :
    (s.run uses).pulled ++ (s.run uses).rest.pulls = s.pulled ++ s.rest.pulls := by
  induction uses generalizing s with
  | nil => rfl
  | cons u rest ih =>
    have hu : ∀ cut, u ≠ .apply cut := fun cut he => h cut (he ▸ List.mem_cons_self)
    have hrest : ∀ cut, .apply cut ∉ rest := fun cut hm => h cut (List.mem_cons_of_mem u hm)
    rw [run, List.foldl_cons, ← run, ih hrest, use, List.append_assoc,
      s.rest.pulls_turn_of_not_cut hu]

/-- **A sequence that has nothing to pull pulls nothing**, whatever is done with it. -/
theorem pulled_run_of_nil (h : s.rest.pulls = []) (uses : List Use) :
    (s.run uses).pulled = s.pulled := by
  -- what it may pull is what it has pulled, and of that it forgets nothing
  have hw : s.Within s.pulled := by simp [Within, h]
  have hgrows : ∀ (uses : List Use) (s : InUse α), s.pulled <+: (s.run uses).pulled := by
    intro uses
    induction uses with
    | nil => exact fun s => List.prefix_refl _
    | cons u rest ih => exact fun s => (List.prefix_append _ _).trans (ih (s.use u))
  have hle := (List.prefix_append _ _).trans (hw.run uses)
  exact hle.eq_of_length (Nat.le_antisymm hle.length_le (hgrows uses s).length_le)

/--
**A sequence refines a list.**  However a sequence of a source's elements starts and is used, it
answers what a plain list of them answers.  The elements that it has pulled, and then those that it
may still pull, are the first ones of the source, each once.  A cut pulls nothing.  Once buffered it
holds what the list holds and pulls nothing any more, and without a cut all of the source has then
been pulled.
-/
theorem run_start (number : α → Nat) (xs : List α) (start : Start) (uses : List Use) :
    let s := (⟨[], [], start.seq (.ofNumbered number xs)⟩ : InUse α).run uses
    let l := (⟨[], xs⟩ : ListInUse α).run uses
    (s.answers = l.answers ∧ s.rest.toList = l.rest) ∧
    s.pulled ++ s.rest.pulls <+: xs.map number ∧
    (∀ cut, (s.use (.apply cut)).pulled = s.pulled) ∧
    (s.use .force).rest = .buffered l.rest ∧
    (∀ later, ((s.use .force).run later).pulled = (s.use .force).pulled) ∧
    (start ≠ .buffered → (∀ cut, .apply cut ∉ uses) → (s.use .force).pulled = xs.map number) := by
  intro s l
  have hlist := Flow.toList_ofNumbered number xs
  have hpulls := Flow.pulls_ofNumbered number xs
  have hf : s.Follows l := Follows.run ⟨rfl, (start.toList_seq _).trans hlist⟩ uses
  have hstart : Within (xs.map number) ⟨[], [], start.seq (.ofNumbered number xs)⟩ :=
    hpulls ▸ start.pulls_seq_prefix _
  have hw : s.Within (xs.map number) := hstart.run uses
  refine ⟨⟨hf.answers, hf.rest⟩, hw, fun cut => List.append_nil s.pulled, ?_,
    pulled_run_of_nil rfl, fun hlazy hcut => ?_⟩
  · exact congrArg Seq.buffered hf.rest
  · have hp := pulls_run_of_not_cut hcut ⟨[], [], start.seq (.ofNumbered number xs)⟩
    exact hp.trans ((Start.pulls_seq hlazy _).trans hpulls)

/-- Of five elements every second one is handed out: the second answer takes three pulls. -/
example :
    let s := (⟨[], [], .lazy (.ofNumbered id [1, 2, 3, 4, 5])⟩ : InUse Nat).run
      [.apply (.every 2 (by decide)), .next, .next]
    s.answers = [.silent, .element (some 1), .element (some 3)] ∧ s.pulled = [1, 2, 3] :=
  ⟨rfl, rfl⟩

end InUse

end Seq

end GraphQuery
