import GraphQuery.Operation.SetAlgebra
import GraphQuery.Operation.Transform
/-!
# Where elements come from

What sampling, grouping and the set operations hand out are elements that they were given, so every
test that all of these pass, the outcome passes too (`SetAlgebra.mem_intersect`,
`SetAlgebra.mem_union`, `SetAlgebra.mem_difference`, `Reservoir.mem_sample`, `Flow.mem_runs`).
-/

namespace GraphQuery

namespace Flow

variable {α : Type}

def All (P : α → Prop) (f : Flow α) : Prop := ∀ a ∈ f.toList, P a

variable {P : α → Prop}

theorem all_nil : All P ⟨[]⟩ := fun _ h => absurd h List.not_mem_nil

theorem all_pulling {sources : List Nat} {rest : List (Event α)} :
    All P ⟨pulling sources ++ rest⟩ ↔ All P ⟨rest⟩ := by rw [All, toList_pulling, All]

theorem all_pulling_only (sources : List Nat) : All P ⟨pulling sources⟩ := by
  rw [← List.append_nil (pulling sources), all_pulling]
  exact all_nil

theorem all_yield {a : α} {rest : List (Event α)} :
    All P ⟨.yield a :: rest⟩ ↔ P a ∧ All P ⟨rest⟩ := by
  rw [All, toList_mk_yield, List.forall_mem_cons, All]

theorem all_pull {source : Nat} {rest : List (Event α)} :
    All P ⟨.pull source :: rest⟩ ↔ All P ⟨rest⟩ := by rw [All, toList_mk_pull, All]

/-! ## Runs of neighbours -/

/--
**What holds of a single element, and still holds when one that agrees is added, holds of every run.**
-/
theorem forall_mem_runs {same : α → α → Bool} {f : Flow α} {P : α → List α → Prop}
    (single : ∀ a, P a [a])
    (grow : ∀ first run a, P first run → same first a = true → P first (run ++ [a])) :
    ∀ r ∈ (f.runs same).toList, P r.1 r.2 := by
  -- it holds of the run that is open, which is kept from its last element to its first one
  have go (events : List (Event α)) (run : Option (α × List α)) (h : ∀ r ∈ run, P r.1 r.2.reverse) :
      All (fun r : α × List α => P r.1 r.2) ⟨runEvents same run events⟩ := by
    fun_induction runEvents same run events with
    | case1 => exact all_nil
    | case2 first run => exact all_yield.2 ⟨h _ rfl, all_nil⟩
    | case3 run source rest ih => exact all_pull.2 (ih h)
    | case4 a rest ih => exact ih fun r hr => by cases hr; exact single a
    | case5 first run a rest hs ih =>
      refine ih fun r hr => ?_
      cases hr
      rw [List.reverse_cons]
      exact grow first _ a (h _ rfl) hs
    | case6 first run a rest hs ih =>
      exact all_yield.2 ⟨h _ rfl, ih fun r hr => by cases hr; exact single a⟩
  exact go f.events none fun _ h => by cases h

theorem head?_of_mem_runs {same : α → α → Bool} {f : Flow α} :
    ∀ r ∈ (f.runs same).toList, r.2.head? = some r.1 :=
  forall_mem_runs (P := fun first run => run.head? = some first) (fun _ => rfl)
    fun first run a h _ => by rw [List.head?_append, h, Option.some_or]

theorem first_mem_runs {same : α → α → Bool} {f : Flow α} : ∀ r ∈ (f.runs same).toList,
    r.1 ∈ r.2 := fun r hr => List.mem_of_mem_head? (head?_of_mem_runs r hr)

/-- **The elements of a run, and its first one, are elements of the flow.** -/
theorem mem_runs {same : α → α → Bool} {f : Flow α} {r : α × List α}
    (h : r ∈ (f.runs same).toList) : r.1 ∈ f.toList ∧ ∀ a ∈ r.2, a ∈ f.toList := by
  have hr : ∀ a ∈ r.2, a ∈ f.toList := fun a ha => by
    rw [← flatMap_toList_runs same f]
    exact List.mem_flatMap.2 ⟨r, h, ha⟩
  exact ⟨hr _ (first_mem_runs r h), hr⟩

end Flow

/-! ## Samples -/

namespace Reservoir

variable {α σ : Type}

theorem mem_place {slots : List α} {drawn : Nat} {a b : α} (h : b ∈ place slots drawn a) :
    b ∈ slots ∨ b = a := by
  unfold place at h
  split at h
  · exact List.mem_or_eq_of_mem_set h
  · exact .inl h

theorem mem_fill {draw : Nat → σ → Nat × σ} {k : Nat} {b : α} : ∀ {seen : Nat}
    {slots xs : List α} {s : σ}, b ∈ (fill draw k seen slots xs s).1 → b ∈ slots ∨ b ∈ xs
  | _, _, [], _, h => .inl h
  | seen, slots, a :: rest, s, h => by
    rw [fill] at h
    split at h
    · rcases mem_fill h with h | h
      · rcases List.mem_append.1 h with h | h
        · exact .inl h
        · exact .inr (List.mem_singleton.1 h ▸ List.mem_cons_self)
      · exact .inr (List.mem_cons_of_mem a h)
    · rcases mem_fill h with h | h
      · refine (mem_place h).imp id ?_
        rintro rfl
        exact List.mem_cons_self
      · exact .inr (List.mem_cons_of_mem a h)

/-- **A sample holds elements of the list it was taken from.** -/
theorem mem_pick {draw : Nat → σ → Nat × σ} {k : Nat} {xs : List α} {s : σ} {a : α}
    (h : a ∈ (pick draw k xs s).1) : a ∈ xs :=
  (mem_fill h).resolve_left List.not_mem_nil

theorem mem_sample {size : Nat} {draw : Nat → σ → Nat × σ} {k : Nat} {xs : List α} {s : σ}
    {r : List α × σ} (hr : sample size draw k xs s = some r) {a : α} (h : a ∈ r.1) : a ∈ xs :=
  mem_pick ((sample_eq_some_iff.1 hr).2 ▸ h)

end Reservoir

/-! ## Set operations -/

namespace SetAlgebra

variable {P : Item → Prop} {fs : List (Flow Item)}

theorem toList_of_head {f : Flow Item} {h : Head} (hf : (head f).2 = some h) :
    f.toList = h.flow.toList := by
  unfold head at hf
  obtain ⟨⟨item, rest⟩, hn, rfl⟩ := Option.map_eq_some_iff.1 hf
  rw [Flow.toList_next, hn]
  rfl

theorem all_of_head {f : Flow Item} {h : Head} (ha : f.All P) (hf : (head f).2 = some h) :
    h.flow.All P := by
  rw [Flow.All, ← toList_of_head hf]
  exact ha

theorem all_heads : ∀ {fs : List (Flow Item)} {hs : List Head}, (∀ f ∈ fs, f.All P) →
    (heads fs).2 = some hs → ∀ h ∈ hs, h.flow.All P
  | [], _, _, hh, h, hm => by cases hh; cases hm
  | f :: rest, hs, ha, hh, h, hm => by
    rw [heads] at hh
    split at hh
    · cases hh
    · rename_i pulls g hg
      obtain ⟨gs, hgs, rfl⟩ := Option.map_eq_some_iff.1 hh
      rcases List.mem_cons.1 hm with rfl | hm
      · exact all_of_head (ha f List.mem_cons_self) (by rw [hg])
      · exact all_heads (fun f hf => ha f (List.mem_cons_of_mem _ hf)) hgs h hm

theorem all_intersectRounds : ∀ (rounds : Nat) {fs : List (Flow Item)}, (∀ f ∈ fs, f.All P) →
    Flow.All P ⟨intersectRounds rounds fs⟩
  | 0, _, _ => Flow.all_nil
  | rounds + 1, fs, ha => by
    rw [intersectRounds]
    split
    · exact Flow.all_pulling_only _
    · exact Flow.all_nil
    · rename_i pulls h hs hh
      have hgood : ∀ g ∈ h :: hs, g.flow.All P := all_heads ha (by rw [hh])
      have hrest : ∀ g ∈ h :: hs, g.rest.All P := fun g hg => (Flow.all_yield.1 (hgood g hg)).2
      dsimp only
      split
      · refine Flow.all_pulling.2 (Flow.all_yield.2 ⟨?_, all_intersectRounds rounds ?_⟩)
        · exact (Flow.all_yield.1 (hgood h List.mem_cons_self)).1
        · exact List.forall_mem_map.2 hrest
      · refine Flow.all_pulling.2 (all_intersectRounds rounds (List.forall_mem_map.2 ?_))
        intro g hg
        split
        · exact hrest g hg
        · exact hgood g hg

/-- **An intersection hands out items of its operands.** -/
theorem mem_intersect {item : Item} (h : item ∈ (intersect fs).toList) :
    ∃ f ∈ fs, item ∈ f.toList :=
  all_intersectRounds (size fs + 1) (P := fun item => ∃ f ∈ fs, item ∈ f.toList)
    (fun f hf _ hi => ⟨f, hf, hi⟩) item h

theorem all_allHeads : ∀ {fs : List (Flow Item)}, (∀ f ∈ fs, f.All P) →
    ∀ h, some h ∈ (allHeads fs).2 → h.flow.All P
  | [], _, h, hm => by cases hm
  | f :: rest, ha, h, hm => by
    rcases List.mem_cons.1 hm with hm | hm
    · exact all_of_head (ha f List.mem_cons_self) hm.symm
    · exact all_allHeads (fun f hf => ha f (List.mem_cons_of_mem _ hf)) h hm

theorem mem_of_highest : ∀ {hs : List (Option Head)} {best : Option (Nat × Head)} {index : Nat}
    {r : Nat × Head}, highest best index hs = some r → best = some r ∨ some r.2 ∈ hs
  | [], _, _, _, h => .inl h
  | none :: rest, best, index, r, h => by
    rw [highest] at h
    exact (mem_of_highest h).imp id (List.mem_cons_of_mem none)
  | some g :: rest, none, index, r, h => by
    rw [highest] at h
    rcases mem_of_highest h with h | h
    · cases h
      exact .inr List.mem_cons_self
    · exact .inr (List.mem_cons_of_mem _ h)
  | some g :: rest, some (i, b), index, r, h => by
    rw [highest] at h
    rcases mem_of_highest h with h | h
    · split at h
      · cases h
        exact .inr List.mem_cons_self
      · exact .inl h
    · exact .inr (List.mem_cons_of_mem _ h)

theorem all_dropIf {top : Value} {f : Flow Item} (ha : f.All P) : (dropIf top f).2.All P := by
  unfold dropIf
  split
  · exact Flow.all_nil
  · rename_i pulls h hh
    have hgood : h.flow.All P := all_of_head ha (by rw [hh])
    dsimp only
    split
    · exact (Flow.all_yield.1 hgood).2
    · exact hgood

theorem all_afterUnion {top : Value} {chosen : Bool} {h : Head} (ha : h.flow.All P) :
    (afterUnion top chosen (some h)).2.All P := by
  have hrest := (Flow.all_yield.1 ha).2
  rw [afterUnion]
  split
  · exact all_dropIf hrest
  · dsimp only
    split
    · exact hrest
    · exact ha

theorem all_leftover {top : Value} : ∀ {hs : List (Option Head)} {index : Option Nat},
    (∀ h, some h ∈ hs → h.flow.All P) → ∀ f ∈ (leftover top index hs).2, f.All P
  | [], _, _, f, hf => by cases hf
  | none :: rest, index, ha, f, hf => by
    rcases List.mem_cons.1 hf with rfl | hf
    · exact Flow.all_nil
    · exact all_leftover (fun h hm => ha h (List.mem_cons_of_mem _ hm)) f hf
  | some g :: rest, index, ha, f, hf => by
    have hg := ha g List.mem_cons_self
    rcases List.mem_cons.1 hf with rfl | hf
    · exact all_afterUnion hg
    · exact all_leftover (fun h hm => ha h (List.mem_cons_of_mem _ hm)) f hf

theorem all_unionRounds : ∀ (rounds : Nat) {last : Option Value} {fs : List (Flow Item)},
    (∀ f ∈ fs, f.All P) → Flow.All P ⟨unionRounds rounds last fs⟩
  | 0, _, _, _ => Flow.all_nil
  | rounds + 1, last, fs, ha => by
    have hgood := all_allHeads ha
    rw [unionRounds]
    dsimp only
    split
    · exact Flow.all_pulling_only _
    · rename_i index h hh
      have hh : h.flow.All P := hgood h ((mem_of_highest hh).resolve_left (by simp))
      split
      · exact Flow.all_pulling.2 (all_unionRounds rounds (all_leftover hgood))
      · exact Flow.all_pulling.2 (Flow.all_yield.2
          ⟨(Flow.all_yield.1 hh).1, all_unionRounds rounds (all_leftover hgood)⟩)

/-- **A union hands out items of its operands.** -/
theorem mem_union {item : Item} (h : item ∈ (union fs).toList) : ∃ f ∈ fs, item ∈ f.toList :=
  all_unionRounds (size fs + 1) (P := fun item => ∃ f ∈ fs, item ∈ f.toList)
    (fun f hf _ hi => ⟨f, hf, hi⟩) item h

theorem all_subtractEvents {excluded : List Item} : ∀ {events : List (Event Item)}
    {asking : List Nat} {seen : List Item}, Flow.All P ⟨events⟩ →
      Flow.All P ⟨subtractEvents excluded asking seen events⟩
  | [], _, _, _ => Flow.all_nil
  | .pull source :: rest, asking, seen, ha =>
    Flow.all_pull.2 (all_subtractEvents (Flow.all_pull.1 ha))
  | .yield a :: rest, asking, seen, ha => by
    obtain ⟨hp, ha⟩ := Flow.all_yield.1 ha
    rw [subtractEvents, Flow.all_pulling]
    split
    · exact all_subtractEvents ha
    · exact Flow.all_yield.2 ⟨hp, all_subtractEvents ha⟩

/-- **A difference hands out items of its left operand.** -/
theorem mem_difference {left right : Flow Item} {item : Item}
    (h : item ∈ (difference left right).toList) : item ∈ left.toList :=
  all_subtractEvents (P := (· ∈ left.toList)) (fun _ hi => hi) item h

end SetAlgebra

end GraphQuery
