/-!
# Flows

A flow is the course of a lazy sequence: the elements it pulls from its sources and the elements it
hands out, in the order in which that happens.  Whoever asks a flow for its next element makes it
run up to that element and no further (`Flow.next`), so how far a source has been pulled can be
read off the course.  An operation on lazy sequences is a rewriting of courses; it pulls nothing.
-/

namespace GraphQuery

inductive Event (α : Type) where
  | pull (source : Nat)
  | yield (a : α)

structure Flow (α : Type) where
  events : List (Event α)

namespace Flow

variable {α β : Type}

/-! ## Making and reading flows -/

def ofList (xs : List α) : Flow α := ⟨xs.map .yield⟩

def ofSource (source : Nat) (xs : List α) : Flow α :=
  ⟨xs.flatMap fun a => [.pull source, .yield a]⟩

def yielded? : Event α → Option α
  | .pull _ => none
  | .yield a => some a

def pulled? : Event α → Option Nat
  | .pull source => some source
  | .yield _ => none

def toList (f : Flow α) : List α := f.events.filterMap yielded?

def pulls (f : Flow α) : List Nat := f.events.filterMap pulled?

def pulling (sources : List Nat) : List (Event α) := sources.map .pull

structure Step (α : Type) where
  pulls : List Nat
  next : Option (α × Flow α)

def split : List (Event α) → Step α
  | [] => ⟨[], none⟩
  | .pull source :: rest => let s := split rest; ⟨source :: s.pulls, s.next⟩
  | .yield a :: rest => ⟨[], some (a, ⟨rest⟩)⟩

def next (f : Flow α) : Step α := split f.events

/-! ## Operations -/

/-- Cuts a course behind its first elements; asking for none pulls nothing. -/
def takeEvents : Nat → List (Event α) → List (Event α)
  | 0, _ => []
  | _ + 1, [] => []
  | n + 1, .pull source :: rest => .pull source :: takeEvents (n + 1) rest
  | n + 1, .yield a :: rest => .yield a :: takeEvents n rest

def dropEvents : Nat → List (Event α) → List (Event α)
  | 0, events => events
  | _ + 1, [] => []
  | n + 1, .pull source :: rest => .pull source :: dropEvents (n + 1) rest
  | n + 1, .yield _ :: rest => dropEvents n rest

/-- Hands out one element after withholding `wait` of them, and then withholds `gap` between two. -/
def everyEvents (gap : Nat) : Nat → List (Event α) → List (Event α)
  | _, [] => []
  | wait, .pull source :: rest => .pull source :: everyEvents gap wait rest
  | 0, .yield a :: rest => .yield a :: everyEvents gap gap rest
  | wait + 1, .yield _ :: rest => everyEvents gap wait rest

/-- The first elements; what follows them is not pulled. -/
def take (n : Nat) (f : Flow α) : Flow α := ⟨takeEvents n f.events⟩

/-- All but the first elements, which are pulled with the first of the others. -/
def drop (n : Nat) (f : Flow α) : Flow α := ⟨dropEvents n f.events⟩

def every (n : Nat) (f : Flow α) : Flow α := ⟨everyEvents (n - 1) 0 f.events⟩

def filterMap (g : α → Option β) (f : Flow α) : Flow β :=
  ⟨f.events.filterMap fun
    | .pull source => some (.pull source)
    | .yield a => (g a).map .yield⟩

def map (g : α → β) (f : Flow α) : Flow β := f.filterMap fun a => some (g a)

def filter (p : α → Bool) (f : Flow α) : Flow α :=
  f.filterMap fun a => if p a then some a else none

def append (f g : Flow α) : Flow α := ⟨f.events ++ g.events⟩

instance : Append (Flow α) := ⟨append⟩

def join (fs : List (Flow α)) : Flow α := ⟨fs.flatMap events⟩

/-- Runs to the end when first asked, and hands out what is made of all the elements. -/
def defer (g : List α → List β) (f : Flow α) : Flow β :=
  ⟨pulling f.pulls ++ (ofList (g f.toList)).events⟩

/--
Runs of neighbours, each described by its first element and all of them.  A run is handed out when
the first element beyond it has been pulled, or the flow has ended.
-/
def runEvents (same : α → α → Bool) :
    Option (α × List α) → List (Event α) → List (Event (α × List α))
  | none, [] => []
  | some (first, run), [] => [.yield (first, run.reverse)]
  | run, .pull source :: rest => .pull source :: runEvents same run rest
  | none, .yield a :: rest => runEvents same (some (a, [a])) rest
  | some (first, run), .yield a :: rest =>
    if same first a then runEvents same (some (first, a :: run)) rest
    else .yield (first, run.reverse) :: runEvents same (some (a, [a])) rest

def runs (same : α → α → Bool) (f : Flow α) : Flow (α × List α) := ⟨runEvents same none f.events⟩

/-! ## Elements and pulls of flows -/

@[simp] theorem toList_mk_nil : (⟨[]⟩ : Flow α).toList = [] := rfl

@[simp] theorem toList_mk_pull (source : Nat) (rest : List (Event α)) :
    (⟨.pull source :: rest⟩ : Flow α).toList = (⟨rest⟩ : Flow α).toList := rfl

@[simp] theorem toList_mk_yield (a : α) (rest : List (Event α)) :
    (⟨.yield a :: rest⟩ : Flow α).toList = a :: (⟨rest⟩ : Flow α).toList := rfl

@[simp] theorem pulls_mk_nil : (⟨[]⟩ : Flow α).pulls = [] := rfl

@[simp] theorem pulls_mk_pull (source : Nat) (rest : List (Event α)) :
    (⟨.pull source :: rest⟩ : Flow α).pulls = source :: (⟨rest⟩ : Flow α).pulls := rfl

@[simp] theorem pulls_mk_yield (a : α) (rest : List (Event α)) :
    (⟨.yield a :: rest⟩ : Flow α).pulls = (⟨rest⟩ : Flow α).pulls := rfl

@[simp] theorem toList_ofList (xs : List α) : (ofList xs).toList = xs := by
  induction xs with
  | nil => rfl
  | cons x xs ih =>
    simp only [ofList, List.map_cons, toList_mk_yield] at ih ⊢
    rw [ih]

@[simp] theorem pulls_ofList (xs : List α) : (ofList xs).pulls = [] := by
  induction xs with
  | nil => rfl
  | cons x xs ih =>
    simp only [ofList, List.map_cons, pulls_mk_yield] at ih ⊢
    rw [ih]

@[simp] theorem pulls_ofSource (source : Nat) (xs : List α) :
    (ofSource source xs).pulls = List.replicate xs.length source := by
  induction xs with
  | nil => rfl
  | cons x xs ih =>
    simp only [ofSource, List.flatMap_cons, List.cons_append, List.nil_append, pulls_mk_pull,
      pulls_mk_yield, List.length_cons, List.replicate_succ] at ih ⊢
    rw [ih]

@[simp] theorem toList_join (fs : List (Flow α)) : (join fs).toList = fs.flatMap toList := by
  induction fs with
  | nil => rfl
  | cons f fs ih =>
    simp only [join, toList, List.flatMap_cons, List.filterMap_append] at ih ⊢
    rw [ih]

@[simp] theorem toList_take (n : Nat) (f : Flow α) : (f.take n).toList = f.toList.take n := by
  obtain ⟨events⟩ := f
  simp only [take]
  fun_induction takeEvents n events with
  | case1 => simp
  | case2 => simp
  | case3 n source rest ih => simpa using ih
  | case4 n a rest ih => simpa using ih

theorem pulls_take_prefix (n : Nat) (f : Flow α) : (f.take n).pulls <+: f.pulls := by
  obtain ⟨events⟩ := f
  simp only [take]
  fun_induction takeEvents n events with
  | case1 => simp
  | case2 => simp
  | case3 n source rest ih => simpa [List.cons_prefix_cons] using ih
  | case4 n a rest ih => simpa using ih

@[simp] theorem toList_drop (n : Nat) (f : Flow α) : (f.drop n).toList = f.toList.drop n := by
  obtain ⟨events⟩ := f
  simp only [drop]
  fun_induction dropEvents n events with
  | case1 => simp
  | case2 => simp
  | case3 n source rest ih => simpa using ih
  | case4 n a rest ih => simpa using ih

@[simp] theorem pulls_drop (n : Nat) (f : Flow α) : (f.drop n).pulls = f.pulls := by
  obtain ⟨events⟩ := f
  simp only [drop]
  fun_induction dropEvents n events with
  | case1 => simp
  | case2 => simp
  | case3 n source rest ih => simpa using ih
  | case4 n a rest ih => simpa using ih

@[simp] theorem toList_filterMap (g : α → Option β) (f : Flow α) :
    (f.filterMap g).toList = f.toList.filterMap g := by
  obtain ⟨events⟩ := f
  induction events with
  | nil => rfl
  | cons e rest ih =>
    cases e with
    | pull source => simpa [filterMap] using ih
    | yield a => cases h : g a <;> simpa [filterMap, h] using ih

@[simp] theorem pulls_filterMap (g : α → Option β) (f : Flow α) :
    (f.filterMap g).pulls = f.pulls := by
  obtain ⟨events⟩ := f
  induction events with
  | nil => rfl
  | cons e rest ih =>
    cases e with
    | pull source => simpa [filterMap] using ih
    | yield a => cases h : g a <;> simpa [filterMap, h] using ih

@[simp] theorem toList_map (g : α → β) (f : Flow α) : (f.map g).toList = f.toList.map g := by
  simp [map]

@[simp] theorem pulls_map (g : α → β) (f : Flow α) : (f.map g).pulls = f.pulls := by
  simp [map]

@[simp] theorem toList_filter (p : α → Bool) (f : Flow α) :
    (f.filter p).toList = f.toList.filter p := by
  simp only [filter, toList_filterMap]
  induction f.toList with
  | nil => rfl
  | cons a as ih => by_cases h : p a <;> simp [h, ih]

@[simp] theorem pulls_filter (p : α → Bool) (f : Flow α) : (f.filter p).pulls = f.pulls := by
  simp [filter]

@[simp] theorem toList_pulling (sources : List Nat) (rest : List (Event α)) :
    (⟨pulling sources ++ rest⟩ : Flow α).toList = (⟨rest⟩ : Flow α).toList := by
  induction sources with
  | nil => rfl
  | cons s ss ih => simpa [pulling] using ih

@[simp] theorem pulls_pulling (sources : List Nat) (rest : List (Event α)) :
    (⟨pulling sources ++ rest⟩ : Flow α).pulls = sources ++ (⟨rest⟩ : Flow α).pulls := by
  induction sources with
  | nil => rfl
  | cons s ss ih => simpa [pulling] using ih

@[simp] theorem toList_defer (g : List α → List β) (f : Flow α) :
    (f.defer g).toList = g f.toList := by
  simp only [defer, toList_pulling]
  exact toList_ofList _

@[simp] theorem pulls_defer (g : List α → List β) (f : Flow α) : (f.defer g).pulls = f.pulls := by
  simp only [defer, pulls_pulling]
  exact (congrArg (f.pulls ++ ·) (pulls_ofList _)).trans (List.append_nil _)

theorem toList_next (f : Flow α) :
    f.toList = (f.next.next.map fun (a, rest) => a :: rest.toList).getD [] := by
  obtain ⟨events⟩ := f
  simp only [next]
  induction events with
  | nil => rfl
  | cons e rest ih =>
    cases e with
    | pull source => simpa [split] using ih
    | yield a => simp [split]

theorem pulls_next (f : Flow α) :
    f.pulls = f.next.pulls ++ (f.next.next.map fun n => n.2.pulls).getD [] := by
  obtain ⟨events⟩ := f
  simp only [next]
  induction events with
  | nil => rfl
  | cons e rest ih =>
    cases e with
    | pull source => simpa [split] using ih
    | yield a => simp [split]

theorem flatMap_toList_runs (same : α → α → Bool) (f : Flow α) :
    (f.runs same).toList.flatMap Prod.snd = f.toList := by
  have go (events : List (Event α)) (run : Option (α × List α)) :
      (⟨runEvents same run events⟩ : Flow _).toList.flatMap Prod.snd =
        (run.map fun r => r.2.reverse).getD [] ++ (⟨events⟩ : Flow α).toList := by
    fun_induction runEvents same run events with
    | case1 => rfl
    | case2 => simp
    | case3 run source rest ih => simpa using ih
    | case4 a rest ih => simpa using ih
    | case5 first run a rest h ih => simpa using ih
    | case6 first run a rest h ih => simpa using ih
  simpa [runs] using go f.events none

end Flow

end GraphQuery
