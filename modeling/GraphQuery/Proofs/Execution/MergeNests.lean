import GraphQuery.Proofs.Execution.Entering
import GraphQuery.Proofs.Execution.Steadiness
import GraphQuery.Proofs.Tree.Substitution
/-!
# Merges of subqueries under keys

Putting the outcome of a subquery back into one sequence replaces every sequence that the subquery
left by what becomes of it on its own (`Replant.tree_place`), and no cursor has a part in that.  So
a subquery that merges others under distinct keys leaves under each key what the one below it leaves
alone (`Plan.answer_apply_merge`).
-/

namespace GraphQuery

namespace Replant

variable {origins : List Leaf} {results : List Item} {sub : Option Cursor} {outer : Placed}

/-! ## Trees without their cursors -/

theorem tree_prune : ∀ (removed points points' : List Path) (t : Tree),
    (prune removed points t).2 = (prune removed points' t).2
  | [], _, _, _ => rfl
  | _ :: rest, _, _, _ => tree_prune rest _ _ _

theorem tree_replantOrReplace (origins : List Leaf) (results : List Item) (sub : Option Cursor)
    (into : Placed) : (replantOrReplace origins results sub into).tree =
      (replantOrReplace origins results none ⟨into.tree, none⟩).tree := by
  cases h : homeless origins results with
  | true => rw [replantOrReplace_of_homeless h, replantOrReplace_of_homeless h]
  | false =>
    rw [(replanted_of_settled sub into h).tree,
      (replanted_of_settled none ⟨into.tree, none⟩ h).tree]
    exact tree_prune _ _ _ _

def regrown (origins : List Leaf) (outer : Tree) (s : Seq Item) : Tree :=
  lift (replantOrReplace origins s.toList none ⟨outer, none⟩).tree

theorem tree_hangAll {branch : Path → Placed} : ∀ (paths : List Path) (whole : Placed),
    (hangAll branch paths whole).tree =
      whole.tree.putTrees (fun p => lift (branch p).tree) paths
  | [], _ => rfl
  | p :: rest, whole => by
    rw [hangAll, List.foldl_cons, ← hangAll, tree_hangAll rest, hang_tree]
    rfl

theorem tree_replantUnder (shaped : Tree) :
    (replantUnder origins shaped sub outer).tree =
      shaped.substitute (regrown origins outer.tree.force) := by
  rw [replantUnder_eq, tree_hangAll]
  refine Tree.putTrees_seqPaths fun p s hp => ?_
  rw [branchAt, tree_replantOrReplace, itemsAt, hp]
  rfl

theorem lift_anon (s : Seq Item) : lift (.anon s) = .seq s := rfl

/--
**What a subquery leaves is put back sequence by sequence**: every sequence of its tree is replaced,
whether the tree is one sequence or a mapping.
-/
theorem tree_place {child : Session} {s₀ : Seq Item} (ho : outer.tree = .anon s₀)
    (hf : outer.tree.force = outer.tree) (hm : child.tree.IsMapping) :
    (place origins child outer).tree = child.tree.substitute (regrown origins outer.tree) := by
  unfold place
  cases hs : child.tree.single? with
  | none =>
    dsimp only
    rw [tree_replantUnder, hf]
  | some s =>
    -- one sequence is left in the place of one sequence, so the anonymous key stays
    have ha : ∃ s',
        (replantOrReplace origins s.toList none ⟨outer.tree, none⟩).tree = .anon s' := by
      cases h : homeless origins s.toList with
      | true =>
        rw [replantOrReplace_of_homeless h]
        exact ⟨_, rfl⟩
      | false =>
        have hk := (replanted_of_settled none ⟨outer.tree, none⟩ h).skeleton
        rw [ho] at hk ⊢
        exact Tree.eq_anon_of_skeleton hk
    obtain ⟨s', hs'⟩ := ha
    rw [hm.eq_anon hs, Tree.anon, Tree.substitute_map]
    dsimp only
    rw [tree_replantOrReplace, hs', List.map_cons, Tree.substitute, regrown, hs', lift_anon]
    rfl

end Replant

/-! ## Merging under a new key -/

namespace Tree

theorem putEntry_of_new {key : Key} {added : Tree} {change : Tree → Except MergeConflict Tree} :
    ∀ {entries : List (Key × Tree)}, (∀ e ∈ entries, e.1 ≠ key) →
      putEntry key added change entries = .ok (entries ++ [(key, added)])
  | [], _ => rfl
  | e :: rest, h => by
    rw [putEntry, if_neg (h e List.mem_cons_self),
      putEntry_of_new fun e' he => h e' (List.mem_cons_of_mem _ he)]
    rfl

theorem merge_of_new {key : Key} {t : Tree} {entries : List (Key × Tree)}
    (h : ∀ e ∈ entries, e.1 ≠ key) :
    (map entries).merge (map [(key, t)]) = .ok (map (entries ++ [(key, t)])) := by
  rw [merge, mergeUnder, mergeEntries, putEntry_of_new h]
  rfl

end Tree

/-! ## Answers -/

theorem Except.mapM_of_map {α β γ ε : Type} {f : α → Except ε β} {g : β → γ}
    {f' : α → Except ε γ} : ∀ {xs : List α}, (∀ x ∈ xs, f' x = (f x).map g) →
      xs.mapM f' = (xs.mapM f).map (List.map g)
  | [], _ => rfl
  | x :: xs, h => by
    rw [List.mapM_cons, List.mapM_cons, h x List.mem_cons_self,
      Except.mapM_of_map fun x' hx => h x' (List.mem_cons_of_mem x hx)]
    cases f x with
    | error e => rfl
    | ok y => cases xs.mapM f <;> rfl

namespace Plan

variable {b : Backend} {m : Machine}

def answer (b : Backend) (p : Plan) (m : Machine) : Except QueryError Tree :=
  match run b p m with
  | .ok _ after => .ok after.session.tree
  | .error e _ => .error e

theorem answer_eq (b : Backend) (p : Plan) (m : Machine) : answer b p m =
    (Run.outcome (run b p m)).1.map fun _ => (Run.outcome (run b p m)).2.tree := by
  unfold answer
  cases run b p m <;> rfl

theorem answer_nest (key : String) (p : Plan) :
    answer b (.nest key p) m = (answer b p m).map fun t => .map [(.name key, t)] := by
  unfold answer
  rw [run, Run.bind_apply]
  cases run b p m <;> rfl

/-! ## Operands under keys -/

def operandStart (m : Machine) : Machine := ⟨.ofScope m.session.scope, m.world⟩

theorem operandStart_ofScope (scope : Option (List Item)) (w : World) :
    operandStart ⟨.ofScope scope, w⟩ = ⟨.ofScope scope, w⟩ := by
  cases scope <;> rfl

def entryOf (b : Backend) (m : Machine) (operand : String × Plan) :
    Except QueryError (Key × Tree) :=
  (answer b operand.2 (operandStart m)).map (Prod.mk (.name operand.1))

def keyed (operand : String × Plan) : Plan := .nest operand.1 operand.2

theorem steady_keyed {operand : String × Plan} (h : Run.Steady (run b operand.2)) :
    Run.Steady (run b (keyed operand)) := Run.steady_then h (Run.steady_update _)

theorem outcome_operand_run (p : Plan) : Run.outcome (Run.operand (run b p) m) =
    (answer b p (operandStart m), m.session) := by
  rw [answer_eq]
  exact Run.outcome_operand _ m

theorem outcome_operand_keyed {α : Type} {f : Tree → Run α} (hf : ∀ t, Run.Steady (f t))
    (operand : String × Plan) :
    Run.outcome ((Run.operand (run b (keyed operand)) >>= f) m) =
      match entryOf b m operand with
      | .ok e => Run.outcome (f (.map [e]) m)
      | .error e => (.error e, m.session) := by
  rw [Run.outcome_bind hf, outcome_operand_run, keyed, answer_nest, entryOf]
  cases answer b operand.2 (operandStart m) <;> rfl

theorem fst_of_entryOf {o : String × Plan} {e : Key × Tree} (h : entryOf b m o = .ok e) :
    e.1 = .name o.1 := by
  rw [entryOf] at h
  cases ha : answer b o.2 (operandStart m) with
  | error e => rw [ha] at h; cases h
  | ok t => rw [ha] at h; cases h; rfl

theorem ne_of_entryOf {o : String × Plan} {e : Key × Tree} {rest : List (String × Plan)}
    (h : entryOf b m o = .ok e) (hn : o.1 ∉ rest.map Prod.fst) : ∀ o' ∈ rest, e.1 ≠ .name o'.1 := by
  intro o' ho' he
  rw [fst_of_entryOf h] at he
  injection he with he
  exact hn (he ▸ List.mem_map_of_mem ho')

theorem steady_runMerge_keyed {operands : List (String × Plan)}
    (h : ∀ o ∈ operands, Run.Steady (run b o.2)) (merged : Option Tree) :
    Run.Steady (runMerge b merged (operands.map keyed)) := by
  refine steady_runMerge fun p hp => ?_
  obtain ⟨o, ho, rfl⟩ := List.mem_map.1 hp
  exact steady_keyed (h o ho)

theorem runMerge_none_cons (p : Plan) (rest : List Plan) : runMerge b none (p :: rest) =
    Run.operand (run b p) >>= fun t => runMerge b (some t) rest := rfl

theorem runMerge_some_cons (merged : Tree) (p : Plan) (rest : List Plan) :
    runMerge b (some merged) (p :: rest) = Run.operand (run b p) >>= fun t =>
      Run.ofExcept (merged.merge t) >>= fun t => runMerge b (some t) rest := rfl

theorem outcome_runMerge_keyed : ∀ {operands : List (String × Plan)} {entries : List (Key × Tree)},
    (∀ o ∈ operands, Run.Steady (run b o.2)) → (operands.map Prod.fst).Nodup →
    (∀ o ∈ operands, ∀ e ∈ entries, e.1 ≠ .name o.1) →
      Run.outcome (runMerge b (some (.map entries)) (operands.map keyed) m) =
        ((operands.mapM (entryOf b m)).map fun es => some (.map (entries ++ es)), m.session)
  | [], entries, _, _, _ => by
    show (Except.ok (some (Tree.map entries)), m.session) =
      (Except.ok (some (Tree.map (entries ++ []))), m.session)
    rw [List.append_nil]
  | o :: rest, entries, hs, hn, hk => by
    obtain ⟨hn, hrest⟩ := List.nodup_cons.1 hn
    have hsteady := steady_runMerge_keyed fun o' ho' => hs o' (List.mem_cons_of_mem o ho')
    rw [List.map_cons, runMerge_some_cons, outcome_operand_keyed fun t =>
      Run.steady_bind (Run.steady_ofExcept _) fun _ => hsteady _, List.mapM_cons]
    cases he : entryOf b m o with
    | error e => rfl
    | ok e =>
      have hm : (Tree.map entries).merge (.map [e]) = .ok (.map (entries ++ [e])) :=
        Tree.merge_of_new fun e' he' => by
          rw [fst_of_entryOf he]
          exact hk o List.mem_cons_self e' he'
      have hk' : ∀ o' ∈ rest, ∀ e' ∈ entries ++ [e], e'.1 ≠ .name o'.1 := fun o' ho' e' he' => by
        rcases List.mem_append.1 he' with he' | he'
        · exact hk o' (List.mem_cons_of_mem o ho') e' he'
        · rw [List.mem_singleton.1 he']
          exact ne_of_entryOf he hn o' ho'
      have ih := outcome_runMerge_keyed (fun o' ho' => hs o' (List.mem_cons_of_mem o ho')) hrest hk'
      dsimp only
      rw [hm]
      refine ih.trans (Prod.ext ?_ rfl)
      cases rest.mapM (entryOf b m) with
      | error e' => rfl
      | ok es => exact congrArg (fun es => Except.ok (some (Tree.map es))) (List.append_assoc ..)

/-- **A merge of operands under distinct keys leaves a mapping with an entry for each of them.** -/
theorem answer_merge_keyed {operands : List (String × Plan)}
    (hs : ∀ o ∈ operands, Run.Steady (run b o.2)) (hn : (operands.map Prod.fst).Nodup) :
    answer b (.combine .merge (operands.map keyed)) m =
      (operands.mapM (entryOf b m)).map .map := by
  have ha : answer b (.combine .merge (operands.map keyed)) m =
      (Run.outcome (runMerge b none (operands.map keyed) m)).1.map (·.getD .empty) := by
    unfold answer
    rw [run, Run.bind_apply]
    cases runMerge b none (operands.map keyed) m <;> rfl
  rw [ha]
  cases operands with
  | nil => rfl
  | cons o rest =>
    obtain ⟨hn, hrest⟩ := List.nodup_cons.1 hn
    have hs' : ∀ o' ∈ rest, Run.Steady (run b o'.2) :=
      fun o' ho' => hs o' (List.mem_cons_of_mem o ho')
    rw [List.map_cons, runMerge_none_cons,
      outcome_operand_keyed fun t => steady_runMerge_keyed hs' _, List.mapM_cons]
    cases he : entryOf b m o with
    | error e => rfl
    | ok e =>
      have hnew : ∀ o' ∈ rest, ∀ e' ∈ [e], e'.1 ≠ .name o'.1 := fun o' ho' e' he' => by
        rw [List.mem_singleton.1 he']
        exact ne_of_entryOf he hn o' ho'
      dsimp only
      rw [outcome_runMerge_keyed hs' hrest hnew]
      cases rest.mapM (entryOf b m) <;> rfl

/-! ## Applying a merge -/

theorem answer_apply {s q : Plan} (hs : Run.Steady (run b s))
    (hq : ∀ mq, run b q m = .ok () mq → ∃ items, mq.session.tree = .anon items) :
    answer b (.apply s q) m = match Run.outcome (run b q m) with
      | (.ok _, sq) => (answer b s (Machine.mk sq m.world).descend).map
          (Tree.substitute (Replant.regrown sq.tree.leaves sq.tree.force))
      | (.error e, _) => .error e := by
  have hrun : run b (.apply s q) m = (run b q >>= fun _ => Run.applySubquery (run b s)) m := rfl
  rw [answer_eq, hrun, Run.outcome_bind fun _ => Run.steady_applySubquery hs]
  cases hr : run b q m with
  | error e mq => rfl
  | ok a mq =>
    obtain ⟨items, ht⟩ := hq mq hr
    have hf : mq.session.tree.force = .anon items.force := by
      rw [ht]
      rfl
    show (Run.outcome (Run.applySubquery (run b s) ⟨mq.session, m.world⟩)).1.map
      (fun _ => (Run.outcome (Run.applySubquery (run b s) ⟨mq.session, m.world⟩)).2.tree) =
        (answer b s (Machine.mk mq.session m.world).descend).map _
    rw [Run.outcome_applySubquery, answer]
    cases hc : run b s (Machine.mk mq.session m.world).descend with
    | error e child => rfl
    | ok a child =>
      have hp : (Replant.place mq.session.tree.leaves child.session
          ⟨mq.session.tree.force, mq.session.cursor⟩).tree = _ :=
        Replant.tree_place hf (Tree.force_force _)
        (run_isMapping s hc (Tree.isMapping_anon _))
      exact congrArg Except.ok hp

theorem entryOf_apply {s : String × Plan} {q : Plan} {scope : Option (List Item)} {w : World}
    (hs : Run.Steady (run b s.2))
    (hq : ∀ mq, run b q ⟨.ofScope scope, w⟩ = .ok () mq →
      ∃ items, mq.session.tree = .anon items) :
    entryOf b ⟨.ofScope scope, w⟩ (s.1, .apply s.2 q) =
      match Run.outcome (run b q ⟨.ofScope scope, w⟩) with
      | (.ok _, sq) => (entryOf b (Machine.mk sq w).descend s).map fun e =>
          (e.1, e.2.substitute (Replant.regrown sq.tree.leaves sq.tree.force))
      | (.error e, _) => .error e := by
  rw [entryOf, operandStart_ofScope, answer_apply hs hq]
  rcases Run.outcome (run b q ⟨.ofScope scope, w⟩) with ⟨e | _, sq⟩
  · rfl
  · have hstart : operandStart (Machine.mk sq w).descend = (Machine.mk sq w).descend :=
      operandStart_ofScope (some _) w
    dsimp only
    rw [entryOf, hstart]
    cases answer b s.2 (Machine.mk sq w).descend <;> rfl

theorem answer_apply_keyed {subqueries : List (String × Plan)} {q : Plan}
    {scope : Option (List Item)} {w : World} (hne : subqueries ≠ [])
    (hn : (subqueries.map Prod.fst).Nodup) (hs : ∀ s ∈ subqueries, Run.Steady (run b s.2))
    (hsq : Run.Steady (run b q))
    (hq : ∀ mq, run b q ⟨.ofScope scope, w⟩ = .ok () mq →
      ∃ items, mq.session.tree = .anon items) :
    answer b (.apply (.combine .merge (subqueries.map keyed)) q) ⟨.ofScope scope, w⟩ =
      answer b (.combine .merge ((subqueries.map fun s => (s.1, .apply s.2 q)).map keyed))
        ⟨.ofScope scope, w⟩ := by
  have hmerged : Run.Steady (run b (.combine .merge (subqueries.map keyed))) :=
    Run.steady_bind (steady_runMerge_keyed hs none) fun _ => Run.steady_update _
  have happlied : ∀ s ∈ subqueries.map fun s => (s.1, Plan.apply s.2 q),
      Run.Steady (run b s.2) := fun s' hm' => by
    obtain ⟨s, hm, rfl⟩ := List.mem_map.1 hm'
    exact Run.steady_then hsq (Run.steady_applySubquery (hs s hm))
  have hkeys : ((subqueries.map fun s => (s.1, Plan.apply s.2 q)).map Prod.fst).Nodup := by
    rw [List.map_map]
    exact hn
  have hentry := fun s hm => entryOf_apply (s := s) (hs s hm) hq
  rw [answer_apply hmerged hq, answer_merge_keyed happlied hkeys, List.mapM_map]
  generalize Run.outcome (run b q ⟨.ofScope scope, w⟩) = input at hentry ⊢
  obtain ⟨e | _, sq⟩ := input
  · cases subqueries with
    | nil => exact absurd rfl hne
    | cons s rest =>
      rw [List.mapM_cons, Function.comp_apply, hentry s List.mem_cons_self]
      rfl
  · dsimp only at hentry ⊢
    rw [answer_merge_keyed hs hn]
    -- the members of both merges agree up to what is put back
    have hentries := Except.mapM_of_map hentry
    refine Eq.trans ?_ (congrArg (Except.map Tree.map) hentries.symm)
    cases subqueries.mapM (entryOf b (Machine.mk sq w).descend) with
    | error e => rfl
    | ok es => exact congrArg Except.ok (Tree.substitute_map _ es)

/--
**Applying a merge of subqueries under distinct keys is merging, under these keys, what applying
each of them leaves**: the same tree, or the same failure, from any session that has just begun.
-/
theorem answer_apply_merge (objects : List Value → Except BackendError (List Item))
    (edges : String → Value → Except BackendError (List Item))
    {subqueries : List (String × Plan)} {q : Plan}
    {scope : Option (List Item)} {w : World} (hne : subqueries ≠ [])
    (hn : (subqueries.map Prod.fst).Nodup) (hs : ∀ s ∈ subqueries, s.2.isDrawless = true)
    (hd : q.isDrawless = true)
    (hq : ∀ mq, run (.ofFunctions objects edges) q ⟨.ofScope scope, w⟩ = .ok () mq →
      ∃ items, mq.session.tree = .anon items) :
    answer (.ofFunctions objects edges)
        (.apply (.combine .merge (subqueries.map fun s => .nest s.1 s.2)) q) ⟨.ofScope scope, w⟩ =
      answer (.ofFunctions objects edges)
        (.combine .merge (subqueries.map fun s => .nest s.1 (.apply s.2 q)))
        ⟨.ofScope scope, w⟩ := by
  have happly := answer_apply_keyed hne hn (fun s hm => steady_run objects edges s.2 (hs s hm))
    (steady_run objects edges q hd) hq
  rwa [List.map_map] at happly

/-- The friends of two items under one key, and the second of the items under another one. -/
theorem answer_apply_merge_friends :
    let edges : String → Value → Except BackendError (List Item) := fun _ id => .ok [Record.ofId id]
    let b : Backend := .ofFunctions (fun _ => .ok []) edges
    let subqueries : List (String × Plan) :=
      [("friends", .assocHere "friend"), ("second", .literal [.int 2])]
    let input : Plan := .literal [.int 1, .int 2]
    let befriended : Value → Item := fun id =>
      (Record.ofId id).set "friend" (.list [.record (.ofId id)])
    let t : Tree := .map
      [(.name "friends", .anon (.buffered [befriended (.int 1), befriended (.int 2)])),
        (.name "second", .anon (.buffered [.ofId (.int 2)]))]
    subqueries ≠ [] ∧ (subqueries.map Prod.fst).Nodup ∧
      (∀ s ∈ subqueries, s.2.isDrawless = true) ∧ input.isDrawless = true ∧
      (∀ mq, run b input ⟨.ofScope none, {}⟩ = .ok () mq →
        ∃ items, mq.session.tree = .anon items) ∧
      answer b (.apply (.combine .merge (subqueries.map fun s => .nest s.1 s.2)) input)
        ⟨.ofScope none, {}⟩ = .ok t ∧
      answer b (.combine .merge (subqueries.map fun s => .nest s.1 (.apply s.2 input)))
        ⟨.ofScope none, {}⟩ = .ok t := by
  intro edges b subqueries input befriended t
  have hn : (subqueries.map Prod.fst).Nodup := by decide
  have hs : ∀ s ∈ subqueries, s.2.isDrawless = true := by
    intro s hm
    simp only [subqueries, List.mem_cons, List.not_mem_nil, or_false] at hm
    rcases hm with rfl | rfl <;> rfl
  have hq : ∀ mq, run b input ⟨.ofScope none, {}⟩ = .ok () mq →
      ∃ items, mq.session.tree = .anon items := by
    intro mq hq
    cases hq
    exact ⟨_, rfl⟩
  have hleft : answer b (.apply (.combine .merge (subqueries.map fun s => .nest s.1 s.2)) input)
      ⟨.ofScope none, {}⟩ = .ok t := rfl
  have heq := answer_apply_merge (fun _ => .ok []) edges (List.cons_ne_nil _ _) hn hs rfl hq
  exact ⟨List.cons_ne_nil _ _, hn, hs, rfl, hq, hleft, heq.symm.trans hleft⟩

end Plan

end GraphQuery
