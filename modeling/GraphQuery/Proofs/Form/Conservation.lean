import GraphQuery.Proofs.Form.Expansion
/-!
# What expansion keeps

The lists of a form outside quotes are counted one by one (`Form.lists`).  Each of them that is a
pipeline costs the form one mark, and nothing else is lost, doubled or made up on the way; so the
forms that stay as they are have no pipeline among their lists (`Form.expand_conserves`).
-/

namespace GraphQuery

namespace Form

mutual

/-- The lists of a form outside quotes, the form itself among them, each by its elements. -/
def lists : Form → List (List Form)
  | list fs => fs :: listsOfAll fs
  | atom _ => []
  | quote _ => []
termination_by structural f => f

def listsOfAll : List Form → List (List Form)
  | [] => []
  | f :: rest => f.lists ++ listsOfAll rest
termination_by structural fs => fs

end

theorem listsOfAll_eq (fs : List Form) : listsOfAll fs = fs.flatMap lists := by
  induction fs with
  | nil => rfl
  | cons f rest ih => rw [listsOfAll, ih, List.flatMap_cons]

theorem lists_list (fs : List Form) : (list fs).lists = fs :: fs.flatMap lists := by
  rw [lists, listsOfAll_eq]

theorem countP_lists (f : Form) : f.lists.countP isPipeline = f.pipelines := by
  induction f using Form.induction with
  | atom a => rfl
  | quote f ih => rfl
  | list fs ih =>
    have hbelow : ∀ {gs : List Form}, (∀ g ∈ gs, g.lists.countP isPipeline = g.pipelines) →
        (listsOfAll gs).countP isPipeline = pipelinesOfAll gs := by
      intro gs hgs
      induction gs with
      | nil => rfl
      | cons g rest ihr =>
        obtain ⟨hg, hrest⟩ := List.forall_mem_cons.1 hgs
        rw [listsOfAll, List.countP_append, pipelinesOfAll, hg, ihr hrest]
    rw [lists, List.countP_cons, hbelow ih, pipelines, Nat.add_comm]

theorem pipelined_iff_exists_mem_lists (f : Form) :
    f.Pipelined ↔ ∃ fs ∈ f.lists, isPipeline fs = true := by
  induction f using Form.induction with
  | atom a => exact ⟨nofun, fun ⟨_, h, _⟩ => absurd h List.not_mem_nil⟩
  | quote f ih => exact ⟨nofun, fun ⟨_, h, _⟩ => absurd h List.not_mem_nil⟩
  | list fs ih =>
    rw [pipelined_list_iff, lists_list, List.exists_mem_cons_iff]
    refine or_congr_right ?_
    constructor
    · rintro ⟨f, hf, h⟩
      obtain ⟨gs, hgs, hp⟩ := (ih f hf).1 h
      exact ⟨gs, List.mem_flatMap.2 ⟨f, hf, hgs⟩, hp⟩
    · rintro ⟨gs, hgs, hp⟩
      obtain ⟨f, hf, hm⟩ := List.mem_flatMap.1 hgs
      exact ⟨f, hf, (ih f hf).2 ⟨gs, hm, hp⟩⟩

/--
**Expansion neither loses nor doubles anything**: the atoms and quoted forms of a form are those of
the expanded form and one mark more for each of its lists, outside quotes, that is the mark with at
least two operands; and the forms without such a list are those that expansion returns unchanged.
-/
theorem expand_conserves (f : Form) :
    f.leaves.Perm (List.replicate (f.lists.countP isPipeline) (symbol pipelineMark) ++
      f.expand.leaves) ∧
    (f.expand = f ↔ ∀ fs ∈ f.lists, isPipeline fs = false) := by
  rw [countP_lists]
  refine ⟨perm_leaves_expand f, ?_⟩
  rw [expand_eq_self_iff, pipelined_iff_exists_mem_lists]
  simp only [not_exists, not_and, Bool.not_eq_true]

end Form

end GraphQuery
