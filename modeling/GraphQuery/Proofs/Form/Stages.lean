import GraphQuery.Proofs.Form.Expansion
/-!
# Pipelines in front of pipelines

The stages of a pipeline are expanded on their own and then threaded one after another, each into
what the stages before it have built.  So the first stages of a pipeline can be made a pipeline of
their own, which then stands as the first stage (`Form.expand_split`).

That is, as long as both are pipelines: a list that has the mark but not two operands keeps it, and
the form that comes of it has an atom more (`Form.length_leaves_pipeline`).
-/

namespace GraphQuery

namespace Form

def pipeline (es : List Form) : Form := list (symbol pipelineMark :: es)

theorem isPipeline_mark_iff {es : List Form} :
    isPipeline (symbol pipelineMark :: es) = true ↔ 2 ≤ es.length := by
  rw [isPipeline_iff]
  constructor
  · rintro ⟨first, second, more, h⟩
    rw [(List.cons.inj h).2]
    exact Nat.le_add_left 2 more.length
  · intro h
    match es, h with
    | first :: second :: more, _ => exact ⟨first, second, more, rfl⟩

theorem expand_pipeline (es : List Form) :
    (pipeline es).expand = thread (symbol pipelineMark :: es.map expand) := by
  rw [pipeline, expand_list, List.map_cons, expand]

/-! ## The stages of a pipeline -/

theorem expand_pipeline_cons (first : Form) {stages : List Form} (h : stages ≠ []) :
    (pipeline (first :: stages)).expand = (stages.map expand).foldl stage first.expand := by
  obtain ⟨second, more, rfl⟩ := List.exists_cons_of_ne_nil h
  rw [expand_pipeline, List.map_cons, List.map_cons, thread_pipeline]

/-- **A pipeline as the first stage of a pipeline is one pipeline with it.** -/
theorem expand_split (first : Form) {stages more : List Form} (hs : stages ≠ []) (hm : more ≠ []) :
    (pipeline (pipeline (first :: stages) :: more)).expand =
      (pipeline (first :: (stages ++ more))).expand := by
  have happend : stages ++ more ≠ [] := List.append_ne_nil_of_left_ne_nil hs more
  calc (pipeline (pipeline (first :: stages) :: more)).expand
      = (more.map expand).foldl stage (pipeline (first :: stages)).expand :=
        expand_pipeline_cons _ hm
    _ = (more.map expand).foldl stage ((stages.map expand).foldl stage first.expand) := by
        rw [expand_pipeline_cons first hs]
    _ = ((stages ++ more).map expand).foldl stage first.expand := by
        rw [List.map_append, List.foldl_append]
    _ = (pipeline (first :: (stages ++ more))).expand := (expand_pipeline_cons first happend).symm

/-! ## Marks that are left -/

def expandedSize (es : List Form) : Nat := ((es.map expand).flatMap leaves).length

theorem expandedSize_cons (e : Form) (es : List Form) :
    expandedSize (e :: es) = e.expand.leaves.length + expandedSize es := by
  rw [expandedSize, List.map_cons, List.flatMap_cons, List.length_append, expandedSize]

theorem expandedSize_append (es es' : List Form) :
    expandedSize (es ++ es') = expandedSize es + expandedSize es' := by
  rw [expandedSize, List.map_append, List.flatMap_append, List.length_append, expandedSize,
    expandedSize]

/-- **Two operands make the mark go away**, and fewer leave it. -/
theorem length_leaves_pipeline (es : List Form) :
    (pipeline es).expand.leaves.length + (if 2 ≤ es.length then 1 else 0) = expandedSize es + 1 := by
  have hthread := (perm_leaves_thread (symbol pipelineMark :: es.map expand)).length_eq
  rw [← expand_pipeline, List.length_append, List.length_replicate, List.flatMap_cons,
    List.length_append, leaves, List.length_singleton] at hthread
  have hmark : (isPipeline (symbol pipelineMark :: es.map expand) = true) = (2 ≤ es.length) := by
    rw [isPipeline_mark_iff, List.length_map]
  simp only [hmark] at hthread
  rw [expandedSize]
  omega

/--
**A pipeline can be split at any stage**: the first `m` of its stages can be made a pipeline in the
place of the first stage, whatever the stages are, just when these are at least two and not all.
-/
theorem expand_split_iff {es : List Form} (h : 2 ≤ es.length) (m : Nat) :
    (pipeline es).expand = (pipeline (pipeline (es.take m) :: es.drop m)).expand ↔
      2 ≤ m ∧ m < es.length := by
  constructor
  · intro he
    have hwhole := length_leaves_pipeline es
    have hfirst := length_leaves_pipeline (es.take m)
    have hsplit := length_leaves_pipeline (pipeline (es.take m) :: es.drop m)
    have hsize := expandedSize_append (es.take m) (es.drop m)
    rw [List.take_append_drop] at hsize
    rw [← he, expandedSize_cons, List.length_cons, List.length_drop] at hsplit
    rw [List.length_take] at hfirst
    rw [if_pos h] at hwhole
    split at hfirst <;> split at hsplit <;> omega
  · rintro ⟨hm, hlast⟩
    obtain ⟨first, stages, rfl⟩ := List.exists_cons_of_length_pos (Nat.lt_of_lt_of_le Nat.two_pos h)
    obtain ⟨k, rfl⟩ : ∃ k, m = k + 1 := ⟨m - 1, by omega⟩
    rw [List.length_cons] at hlast
    have hs : stages.take k ≠ [] := by
      rw [← List.length_pos_iff, List.length_take]
      omega
    have hmore : stages.drop k ≠ [] := by
      rw [← List.length_pos_iff, List.length_drop]
      omega
    rw [List.take_succ_cons, List.drop_succ_cons, expand_split first hs hmore,
      List.take_append_drop]

/-- Nested and quoted stages, an atom and an empty list, split behind the second stage. -/
theorem expand_split_mixed :
    let inner : Form := pipeline [symbol "x", symbol "y"]
    let es : List Form := [.int 1, list [], inner, .quote inner, list [symbol "b", inner]]
    2 ≤ es.length ∧ (2 ≤ 2 ∧ 2 < es.length) ∧
      (pipeline es).expand =
        (pipeline (pipeline [.int 1, list []] :: [inner, .quote inner,
          list [symbol "b", inner]])).expand ∧
      (pipeline es).expand = list [symbol "b", list [symbol "y", symbol "x"],
        list [.quote inner, list [symbol "y", symbol "x", list [.int 1]]]] := by
  intro inner es
  have h : 2 ≤ es.length := by decide
  have hm : 2 ≤ 2 ∧ 2 < es.length := by decide
  exact ⟨h, hm, (expand_split_iff h 2).2 hm, rfl⟩

end Form

end GraphQuery
