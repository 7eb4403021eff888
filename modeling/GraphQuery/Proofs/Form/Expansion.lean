import Mathlib.Data.List.Basic
import GraphQuery.Form.OfTokens
import GraphQuery.Proofs.Form.Grammar
/-!
# What expansion leaves

Expansion takes the mark of every pipeline away and keeps all other atoms
(`Form.perm_leaves_expand`), and it keeps a form without pipelines as it is
(`Form.expand_of_not_pipelined`).  It is one pass from the inside out, and a stage gets the form
built so far after its own pipelines are gone: a stage that comes to the mark and one operand,
which is no pipeline, becomes one then.  Such stages are all that can leave a pipeline behind
(`Form.expand_pipelined_iff`).
-/

namespace GraphQuery

namespace Form

/-! ## Pipelines -/

/-- Whether the elements of a list make it a pipeline: the mark and at least two stages. -/
def isPipeline : List Form → Bool
  | symbol mark :: _ :: _ :: _ => mark = pipelineMark
  | _ => false

theorem isPipeline_mark (first second : Form) (more : List Form) :
    isPipeline (symbol pipelineMark :: first :: second :: more) = true :=
  decide_eq_true (Eq.refl pipelineMark)

theorem isPipeline_iff {fs : List Form} : isPipeline fs = true ↔
    ∃ first second more, fs = symbol pipelineMark :: first :: second :: more := by
  constructor
  · intro h
    unfold isPipeline at h
    split at h
    · rename_i mark first second more
      rw [of_decide_eq_true h]
      exact ⟨first, second, more, rfl⟩
    · cases h
  · rintro ⟨first, second, more, rfl⟩
    exact isPipeline_mark first second more

inductive Pipelined : Form → Prop
  | here {fs : List Form} (h : isPipeline fs = true) : Pipelined (list fs)
  | inside {fs : List Form} {f : Form} (hf : f ∈ fs) (h : Pipelined f) : Pipelined (list fs)

theorem pipelined_list_iff {fs : List Form} :
    Pipelined (list fs) ↔ isPipeline fs = true ∨ ∃ f ∈ fs, Pipelined f := by
  constructor
  · rintro (h | ⟨hf, h⟩)
    · exact .inl h
    · exact .inr ⟨_, hf, h⟩
  · rintro (h | ⟨f, hf, h⟩)
    · exact .here h
    · exact .inside hf h

/-- The mark with one operand: no pipeline, but one when another operand is appended. -/
def IsStub (f : Form) : Prop := ∃ operand, f = list [symbol pipelineMark, operand]

/-- Whether a form has a pipeline in it, at any depth outside quotes, of which a stage behind the
first one comes to the mark with one operand. -/
inductive Stubbed : Form → Prop
  | here {first stage : Form} {stages : List Form} (hs : stage ∈ stages)
      (h : stage.expand.IsStub) : Stubbed (list (symbol pipelineMark :: first :: stages))
  | inside {fs : List Form} {f : Form} (hf : f ∈ fs) (h : Stubbed f) : Stubbed (list fs)

theorem stubbed_list_iff {fs : List Form} : Stubbed (list fs) ↔
    (∃ first stages, fs = symbol pipelineMark :: first :: stages ∧
      ∃ stage ∈ stages, stage.expand.IsStub) ∨ ∃ f ∈ fs, Stubbed f := by
  constructor
  · rintro (⟨hs, h⟩ | ⟨hf, h⟩)
    · exact .inl ⟨_, _, rfl, _, hs, h⟩
    · exact .inr ⟨_, hf, h⟩
  · rintro (⟨first, stages, rfl, stage, hs, h⟩ | ⟨f, hf, h⟩)
    · exact .here hs h
    · exact .inside hf h

/-! ## One list -/

theorem expandAll_eq (fs : List Form) : expandAll fs = fs.map expand := by
  induction fs with
  | nil => rfl
  | cons f rest ih => rw [expandAll, ih, List.map_cons]

theorem expand_list (fs : List Form) : (list fs).expand = thread (fs.map expand) := by
  rw [expand, expandAll_eq]

theorem thread_pipeline (first second : Form) (more : List Form) :
    thread (symbol pipelineMark :: first :: second :: more) =
      (second :: more).foldl stage first := by
  rw [thread, if_pos rfl]

theorem thread_of_not {fs : List Form} (h : isPipeline fs = false) : thread fs = list fs := by
  unfold thread
  split
  · rename_i mark first second more
    rw [if_neg (of_decide_eq_false h)]
  · rfl

theorem stage_eq_list (acc f : Form) : ∃ fs, stage acc f = list fs := by
  cases f <;> exact ⟨_, rfl⟩

theorem foldl_stage_eq_list {stages : List Form} (acc : Form) (h : stages ≠ []) :
    ∃ fs, stages.foldl stage acc = list fs := by
  induction stages generalizing acc with
  | nil => exact absurd rfl h
  | cons s rest ih =>
    rw [List.foldl_cons]
    cases rest with
    | nil => exact stage_eq_list acc s
    | cons r rest => exact ih _ (List.cons_ne_nil r rest)

theorem expand_list_eq_list (fs : List Form) : ∃ gs, (list fs).expand = list gs := by
  rw [expand_list]
  cases h : isPipeline (fs.map expand) with
  | true =>
    obtain ⟨first, second, more, he⟩ := isPipeline_iff.1 h
    rw [he, thread_pipeline]
    exact foldl_stage_eq_list first (List.cons_ne_nil second more)
  | false => exact ⟨_, thread_of_not h⟩

theorem expand_eq_symbol_iff {f : Form} {name : String} :
    f.expand = symbol name ↔ f = symbol name := by
  cases f with
  | atom a => rw [expand]
  | quote f => rw [expand]
  | list fs =>
    obtain ⟨gs, he⟩ := expand_list_eq_list fs
    rw [he]
    exact ⟨nofun, nofun⟩

theorem map_expand_eq_mark_iff {fs gs : List Form} :
    fs.map expand = symbol pipelineMark :: gs ↔
      ∃ rest, fs = symbol pipelineMark :: rest ∧ rest.map expand = gs := by
  rw [List.map_eq_cons_iff]
  constructor
  · rintro ⟨f, rest, rfl, hf, hrest⟩
    rw [expand_eq_symbol_iff.1 hf]
    exact ⟨rest, rfl, hrest⟩
  · rintro ⟨rest, rfl, hrest⟩
    exact ⟨_, rest, rfl, expand_eq_symbol_iff.2 rfl, hrest⟩

theorem isPipeline_map_expand (fs : List Form) : isPipeline (fs.map expand) = isPipeline fs := by
  rw [Bool.eq_iff_iff, isPipeline_iff, isPipeline_iff]
  constructor
  · rintro ⟨first, second, more, h⟩
    obtain ⟨rest, rfl, hrest⟩ := map_expand_eq_mark_iff.1 h
    obtain ⟨f, gs, rfl, -, hgs⟩ := List.map_eq_cons_iff.1 hrest
    obtain ⟨g, hs, rfl, -, -⟩ := List.map_eq_cons_iff.1 hgs
    exact ⟨f, g, hs, rfl⟩
  · rintro ⟨first, second, more, rfl⟩
    exact ⟨first.expand, second.expand, more.map expand, map_expand_eq_mark_iff.2 ⟨_, rfl, rfl⟩⟩

/-! ## Pipelines that are left -/

theorem isPipeline_append {call : List Form} {acc : Form} :
    isPipeline (call ++ [acc]) = true ↔ isPipeline call = true ∨ (list call).IsStub := by
  constructor
  · intro h
    obtain ⟨first, second, more, he⟩ := isPipeline_iff.1 h
    match call, he with
    | [f, g], he =>
      obtain ⟨rfl, -⟩ := List.cons.inj he
      exact .inr ⟨g, rfl⟩
    | f :: g :: k :: call, he =>
      obtain ⟨rfl, -⟩ := List.cons.inj he
      exact .inl (isPipeline_mark g k call)
  · rintro (h | ⟨operand, h⟩)
    · obtain ⟨first, second, more, rfl⟩ := isPipeline_iff.1 h
      exact isPipeline_mark first second (more ++ [acc])
    · cases h
      exact isPipeline_mark operand acc []

theorem isPipeline_pair (f g : Form) : isPipeline [f, g] = false := by
  cases h : isPipeline [f, g] with
  | false => rfl
  | true =>
    obtain ⟨first, second, more, he⟩ := isPipeline_iff.1 h
    cases he

/-- **A stage becomes a pipeline just when it is a stub.** -/
theorem pipelined_stage_iff {acc f : Form} :
    Pipelined (stage acc f) ↔ Pipelined acc ∨ Pipelined f ∨ f.IsStub := by
  cases f with
  | list call =>
    have hlast : (∃ g ∈ call ++ [acc], Pipelined g) ↔
        (∃ g ∈ call, Pipelined g) ∨ Pipelined acc := by simp [or_and_right, exists_or]
    rw [stage, pipelined_list_iff, isPipeline_append, hlast, pipelined_list_iff]
    grind
  | atom a =>
    have ha : ¬ Pipelined (atom a) := nofun
    have hstub : ¬ (atom a).IsStub := nofun
    simp [stage, pipelined_list_iff, isPipeline_pair, ha, hstub]
  | quote f =>
    have hf : ¬ Pipelined (quote f) := nofun
    have hstub : ¬ (quote f).IsStub := nofun
    simp [stage, pipelined_list_iff, isPipeline_pair, hf, hstub]

theorem pipelined_foldl_iff {stages : List Form} {acc : Form} :
    Pipelined (stages.foldl stage acc) ↔
      Pipelined acc ∨ ∃ s ∈ stages, Pipelined s ∨ s.IsStub := by
  induction stages generalizing acc with
  | nil => simp
  | cons s rest ih =>
    rw [List.foldl_cons, ih, pipelined_stage_iff, List.exists_mem_cons_iff, or_assoc]

/-- **What threading leaves**: the pipelines of the elements, and the stages that are stubs. -/
theorem pipelined_thread_iff {fs : List Form} : (thread fs).Pipelined ↔
    (∃ first stages, fs = symbol pipelineMark :: first :: stages ∧ ∃ s ∈ stages, s.IsStub) ∨
      ∃ f ∈ fs, Pipelined f := by
  cases hp : isPipeline fs with
  | false =>
    have hnone : ¬ ∃ first stages, fs = symbol pipelineMark :: first :: stages ∧
        ∃ s ∈ stages, s.IsStub := by
      rintro ⟨first, stages, rfl, s, hs, -⟩
      obtain ⟨second, more, rfl⟩ := List.exists_cons_of_ne_nil (List.ne_nil_of_mem hs)
      rw [isPipeline_mark] at hp
      cases hp
    rw [thread_of_not hp, pipelined_list_iff, hp]
    simp only [Bool.false_eq_true, false_or, hnone]
  | true =>
    obtain ⟨first, second, more, rfl⟩ := isPipeline_iff.1 hp
    have hmark : ¬ Pipelined (symbol pipelineMark) := nofun
    have hstages : (∃ f stages, symbol pipelineMark :: first :: second :: more =
        symbol pipelineMark :: f :: stages ∧ ∃ s ∈ stages, s.IsStub) ↔
          ∃ s ∈ second :: more, s.IsStub := by
      constructor
      · rintro ⟨f, stages, he, h⟩
        cases he
        exact h
      · exact fun h => ⟨first, second :: more, rfl, h⟩
    have hall : (∃ f ∈ symbol pipelineMark :: first :: second :: more, Pipelined f) ↔
        Pipelined first ∨ ∃ s ∈ second :: more, Pipelined s := by
      rw [List.exists_mem_cons_iff, List.exists_mem_cons_iff, or_iff_right hmark]
    rw [thread_pipeline, pipelined_foldl_iff, hstages, hall]
    simp only [and_or_left, exists_or]
    grind

/-- **What expansion leaves.** -/
theorem pipelined_expand (f : Form) : f.expand.Pipelined ↔ f.Stubbed := by
  induction f using Form.induction with
  | atom a =>
    rw [expand]
    exact ⟨nofun, nofun⟩
  | quote f ih =>
    rw [expand]
    exact ⟨nofun, nofun⟩
  | list fs ih =>
    rw [expand_list, pipelined_thread_iff, stubbed_list_iff]
    refine or_congr ?_ ?_
    · constructor
      · rintro ⟨first, stages, he, s, hs, hstub⟩
        obtain ⟨rest, rfl, hrest⟩ := map_expand_eq_mark_iff.1 he
        obtain ⟨f, gs, rfl, -, rfl⟩ := List.map_eq_cons_iff.1 hrest
        obtain ⟨g, hg, rfl⟩ := List.mem_map.1 hs
        exact ⟨f, gs, rfl, g, hg, hstub⟩
      · rintro ⟨first, stages, rfl, s, hs, hstub⟩
        exact ⟨first.expand, stages.map expand, map_expand_eq_mark_iff.2 ⟨_, rfl, rfl⟩, s.expand,
          List.mem_map_of_mem hs, hstub⟩
    · constructor
      · rintro ⟨_, hm, h⟩
        obtain ⟨f, hf, rfl⟩ := List.mem_map.1 hm
        exact ⟨f, hf, (ih f hf).1 h⟩
      · rintro ⟨f, hf, h⟩
        exact ⟨f.expand, List.mem_map_of_mem hf, (ih f hf).2 h⟩

/-! ## Atoms -/

mutual

/-- The atoms and the quoted forms of a form, from left to right. -/
def leaves : Form → List Form
  | list fs => leavesOfAll fs
  | atom a => [atom a]
  | quote f => [quote f]
termination_by structural f => f

def leavesOfAll : List Form → List Form
  | [] => []
  | f :: rest => f.leaves ++ leavesOfAll rest
termination_by structural fs => fs

end

mutual

def pipelines : Form → Nat
  | list fs => (if isPipeline fs then 1 else 0) + pipelinesOfAll fs
  | atom _ => 0
  | quote _ => 0
termination_by structural f => f

def pipelinesOfAll : List Form → Nat
  | [] => 0
  | f :: rest => f.pipelines + pipelinesOfAll rest
termination_by structural fs => fs

end

theorem leavesOfAll_eq (fs : List Form) : leavesOfAll fs = fs.flatMap leaves := by
  induction fs with
  | nil => rfl
  | cons f rest ih => rw [leavesOfAll, ih, List.flatMap_cons]

theorem leaves_list (fs : List Form) : (list fs).leaves = fs.flatMap leaves := by
  rw [leaves, leavesOfAll_eq]

theorem perm_leaves_stage (acc f : Form) : (stage acc f).leaves.Perm (acc.leaves ++ f.leaves) := by
  cases f with
  | list call =>
    rw [stage, leaves_list, leaves_list, List.flatMap_append, List.flatMap_singleton]
    exact List.perm_append_comm
  | atom a =>
    have hs : stage acc (atom a) = list [atom a, acc] := rfl
    rw [hs, leaves_list, List.flatMap_cons, List.flatMap_singleton]
    exact List.perm_append_comm
  | quote f =>
    have hs : stage acc (quote f) = list [quote f, acc] := rfl
    rw [hs, leaves_list, List.flatMap_cons, List.flatMap_singleton]
    exact List.perm_append_comm

theorem perm_leaves_foldl (stages : List Form) (acc : Form) :
    (stages.foldl stage acc).leaves.Perm (acc.leaves ++ stages.flatMap leaves) := by
  induction stages generalizing acc with
  | nil =>
    rw [List.flatMap_nil, List.append_nil]
    exact .refl _
  | cons s rest ih =>
    rw [List.foldl_cons, List.flatMap_cons, ← List.append_assoc]
    exact (ih (stage acc s)).trans ((perm_leaves_stage acc s).append_right _)

theorem perm_leaves_thread (fs : List Form) :
    (fs.flatMap leaves).Perm
      (List.replicate (if isPipeline fs then 1 else 0) (symbol pipelineMark) ++
        (thread fs).leaves) := by
  cases hp : isPipeline fs with
  | false =>
    rw [thread_of_not hp, leaves_list]
    exact .refl _
  | true =>
    obtain ⟨first, second, more, rfl⟩ := isPipeline_iff.1 hp
    rw [thread_pipeline, List.flatMap_cons, List.flatMap_cons, leaves]
    exact .append_left _ (perm_leaves_foldl (second :: more) first).symm

/-- **Expansion takes away the mark of every pipeline and keeps all other atoms.** -/
theorem perm_leaves_expand (f : Form) :
    f.leaves.Perm (List.replicate f.pipelines (symbol pipelineMark) ++ f.expand.leaves) := by
  induction f using Form.induction with
  | atom a =>
    rw [expand, pipelines]
    exact .refl _
  | quote f ih =>
    rw [expand, pipelines]
    exact .refl _
  | list fs ih =>
    have hbelow : ∀ {gs : List Form}, (∀ g ∈ gs, g.leaves.Perm
        (List.replicate g.pipelines (symbol pipelineMark) ++ g.expand.leaves)) →
          (gs.flatMap leaves).Perm (List.replicate (pipelinesOfAll gs) (symbol pipelineMark) ++
            (gs.map expand).flatMap leaves) := by
      intro gs hgs
      induction gs with
      | nil => exact .refl _
      | cons g rest ihr =>
        obtain ⟨hg, hrest⟩ := List.forall_mem_cons.1 hgs
        rw [List.flatMap_cons, List.map_cons, List.flatMap_cons, pipelinesOfAll,
          List.replicate_add, List.append_assoc]
        refine (hg.append (ihr hrest)).trans ?_
        rw [List.append_assoc]
        exact .append_left _ (List.perm_append_comm_assoc _ _ _)
    have hthread := perm_leaves_thread (fs.map expand)
    rw [isPipeline_map_expand] at hthread
    rw [leaves_list, expand_list, pipelines, Nat.add_comm, List.replicate_add,
      List.append_assoc]
    exact (hbelow ih).trans (.append_left _ hthread)

theorem pipelines_pos {f : Form} (h : f.Pipelined) : 0 < f.pipelines := by
  induction h with
  | here h =>
    rw [pipelines, if_pos h]
    exact Nat.add_pos_left Nat.one_pos _
  | @inside fs f hf h ih =>
    have hall : ∀ {gs : List Form}, f ∈ gs → 0 < pipelinesOfAll gs := by
      intro gs hm
      induction hm with
      | head rest => exact Nat.add_pos_left ih _
      | tail g hm ihm => exact Nat.add_pos_right _ ihm
    exact Nat.add_pos_right _ (hall hf)

/-! ## Expanding again -/

/-- **A form without pipelines stays as it is.** -/
theorem expand_of_not_pipelined {f : Form} (h : ¬ f.Pipelined) : f.expand = f := by
  induction f using Form.induction with
  | atom a => rw [expand]
  | quote f ih => rw [expand]
  | list fs ih =>
    rw [pipelined_list_iff, not_or, Bool.not_eq_true] at h
    have hsame : fs.map expand = fs.map id := List.map_congr_left fun f hf =>
      ih f hf fun hp => h.2 ⟨f, hf, hp⟩
    rw [expand_list, hsame, List.map_id, thread_of_not h.1]

theorem expand_eq_self_iff {f : Form} : f.expand = f ↔ ¬ f.Pipelined := by
  refine ⟨fun he hp => ?_, expand_of_not_pipelined⟩
  have hlength := (perm_leaves_expand f).length_eq
  rw [he, List.length_append, List.length_replicate] at hlength
  have hpos := pipelines_pos hp
  omega

/--
**Expansion leaves a pipeline behind just when some pipeline has a stage, behind its first one, that
comes to the mark with one operand**; and just then expanding again changes something.
-/
theorem expand_pipelined_iff (f : Form) :
    (f.expand.Pipelined ↔ f.Stubbed) ∧ (f.expand.expand = f.expand ↔ ¬ f.Stubbed) :=
  ⟨pipelined_expand f, by rw [expand_eq_self_iff, pipelined_expand]⟩

/-- The stage `(->> a)` is no pipeline, but it is one with `x` as its last argument. -/
theorem expand_stub :
    let f : Form := list [symbol pipelineMark, symbol "x",
      list [symbol pipelineMark, symbol "a"]]
    f.expand = list [symbol pipelineMark, symbol "a", symbol "x"] ∧ f.expand.Pipelined ∧
      f.expand.expand = list [symbol "x", symbol "a"] ∧ f.expand.expand ≠ f.expand := by
  intro f
  have hf : f.expand = list [symbol pipelineMark, symbol "a", symbol "x"] := rfl
  have hagain : f.expand.expand = list [symbol "x", symbol "a"] := rfl
  refine ⟨hf, .here rfl, hagain, ?_⟩
  rw [hagain, hf]
  intro h
  exact absurd (congrArg (·.args.length) h) (by decide)

end Form

end GraphQuery
