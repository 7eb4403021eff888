import GraphQuery.Flow.Basic
import Mathlib.Order.Bounds.Basic
/-!
# What a flow hands out for its pulls

`f.upTo k` is what a flow hands out before it pulls more than `k` elements.  An operation streams if
it can be done on these elements alone, as `upTo_take`, `upTo_drop` and `upTo_filterMap` say of
theirs, and then the first element costs no more pulls than it must (`isLeast_pulls_next`).
-/

namespace GraphQuery

namespace Flow

variable {α β : Type} {f : Flow α} {k : Nat}

def upToEvents : Nat → List (Event α) → List α
  | _, [] => []
  | 0, .pull _ :: _ => []
  | k + 1, .pull _ :: rest => upToEvents k rest
  | k, .yield a :: rest => a :: upToEvents k rest

def upTo (k : Nat) (f : Flow α) : List α := upToEvents k f.events

@[simp] theorem upToEvents_nil (k : Nat) : upToEvents k ([] : List (Event α)) = [] := by
  cases k <;> rfl

@[simp] theorem upToEvents_yield (k : Nat) (a : α) (rest : List (Event α)) :
    upToEvents k (.yield a :: rest) = a :: upToEvents k rest := by
  cases k <;> rfl

theorem upToEvents_yields (k : Nat) (as : List α) (rest : List (Event α)) :
    upToEvents k (as.map .yield ++ rest) = as ++ upToEvents k rest := by
  induction as with
  | nil => rfl
  | cons a as ih => exact (upToEvents_yield k a _).trans (congrArg (a :: ·) ih)

theorem upTo_of_le {f : Flow α} (h : f.pulls.length ≤ k) : f.upTo k = f.toList := by
  obtain ⟨events⟩ := f
  induction events generalizing k with
  | nil => exact upToEvents_nil k
  | cons e rest ih =>
    cases e with
    | pull source =>
      rw [pulls_mk_pull, List.length_cons] at h
      cases k with
      | zero => cases h
      | succ k => exact ih (Nat.le_of_succ_le_succ h)
    | yield a =>
      rw [toList_mk_yield, ← ih h]
      exact upToEvents_yield k a rest

/-! ## Operations that stream -/

@[simp] theorem upTo_ofSource (source k : Nat) (xs : List α) :
    (ofSource source xs).upTo k = xs.take k := by
  induction xs generalizing k with
  | nil => exact (upToEvents_nil k).trans List.take_nil.symm
  | cons x xs ih =>
    cases k with
    | zero => rfl
    | succ k => exact (upToEvents_yield k x _).trans (congrArg (x :: ·) (ih k))

@[simp] theorem upTo_take (n k : Nat) (f : Flow α) : (f.take n).upTo k = (f.upTo k).take n := by
  obtain ⟨events⟩ := f
  simp only [take, upTo]
  fun_induction takeEvents n events generalizing k with
  | case1 => simp
  | case2 => simp
  | case3 n source rest ih =>
    cases k with
    | zero => rfl
    | succ k => exact ih k
  | case4 n a rest ih => simp [ih]

@[simp] theorem upTo_drop (n k : Nat) (f : Flow α) : (f.drop n).upTo k = (f.upTo k).drop n := by
  obtain ⟨events⟩ := f
  simp only [drop, upTo]
  fun_induction dropEvents n events generalizing k with
  | case1 => simp
  | case2 => simp
  | case3 n source rest ih =>
    cases k with
    | zero => rfl
    | succ k => exact ih k
  | case4 n a rest ih => simp [ih]

@[simp] theorem upTo_filterMap (g : α → Option β) (k : Nat) (f : Flow α) :
    (f.filterMap g).upTo k = (f.upTo k).filterMap g := by
  obtain ⟨events⟩ := f
  simp only [filterMap, upTo]
  induction events generalizing k with
  | nil => simp
  | cons e rest ih =>
    cases e with
    | pull source =>
      cases k with
      | zero => rfl
      | succ k => exact ih k
    | yield a => cases h : g a <;> simp [h, ih]

@[simp] theorem upTo_map (g : α → β) (k : Nat) (f : Flow α) :
    (f.map g).upTo k = (f.upTo k).map g := by
  simp [map]

@[simp] theorem upTo_filter (p : α → Bool) (k : Nat) (f : Flow α) :
    (f.filter p).upTo k = (f.upTo k).filter p :=
  (upTo_filterMap _ k f).trans (congrFun (List.filterMap_eq_filter (p := p)) _)

/-! ## The first element -/

theorem upTo_ne_nil_iff : f.upTo k ≠ [] ↔ f.next.next.isSome = true ∧ f.next.pulls.length ≤ k := by
  obtain ⟨events⟩ := f
  simp only [upTo, next]
  induction events generalizing k with
  | nil => simp [split]
  | cons e rest ih =>
    cases e with
    | pull source =>
      cases k with
      | zero => simp [split, upToEvents]
      | succ k => exact ih.trans (by simp [split])
    | yield a => simp [split]

theorem isSome_next_iff : f.next.next.isSome = true ↔ f.toList ≠ [] := by
  rw [toList_next]
  cases f.next.next <;> simp

/-- **The first element costs the fewest pulls with which anything is handed out.** -/
theorem isLeast_pulls_next (h : f.toList ≠ []) : IsLeast {k | f.upTo k ≠ []} f.next.pulls.length :=
  ⟨upTo_ne_nil_iff.2 ⟨isSome_next_iff.2 h, Nat.le_refl _⟩, fun _ hk => (upTo_ne_nil_iff.1 hk).2⟩

theorem prefix_pulls_next (f : Flow α) : f.next.pulls <+: f.pulls :=
  ⟨_, (pulls_next f).symm⟩

end Flow

end GraphQuery
