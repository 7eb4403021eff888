import GraphQuery.Proofs.Execution.Attaching
import GraphQuery.Proofs.Execution.Replanting
import GraphQuery.Proofs.Operation.Origin
import GraphQuery.Proofs.Tree.Regular
/-!
# Runs keep items regular

If the items of the literals, of the scope and of the answers of the backend are regular, so are the
items of every tree that a run leaves (`Plan.run_regular`), provided that no projection names a
field twice and no binding names the identifier.  Every operator makes its items out of items it was
given.
-/

namespace GraphQuery

/-! ## Transforms -/

/-- Whether a projection names every field once, and a binding leaves the identifier alone. -/
def Transform.IsSane : Transform → Prop
  | .project fields => fields.Nodup
  | .bind bindings => ∀ b ∈ bindings, b.name ≠ idField
  | _ => True

theorem Transform.regular_rewrite {t : Transform} (ht : t.IsSane) {f : Flow Item}
    (hf : AllRegular f.toList) : AllRegular (t.rewrite f).toList := by
  intro item hi
  cases t with
  | limit n offset =>
    rw [rewrite, Flow.toList_take, Flow.toList_drop] at hi
    exact hf item (List.mem_of_mem_drop (List.mem_of_mem_take hi))
  | sample k => exact hf item hi
  | reverse =>
    rw [rewrite, Flow.toList_defer] at hi
    exact hf item (List.mem_reverse.1 hi)
  | count =>
    rw [rewrite, Flow.toList_defer, List.mem_singleton] at hi
    rw [hi]
    exact Item.regular_empty.insertNew (Value.fits_of_isScalar rfl _)
  | filter p =>
    rw [rewrite, Flow.toList_filter] at hi
    exact hf item (List.mem_filter.1 hi).1
  | project fields =>
    rw [rewrite, Flow.toList_map] at hi
    obtain ⟨a, ha, rfl⟩ := List.mem_map.1 hi
    exact (hf a ha).project ht
  | orderBy keys =>
    rw [rewrite, Flow.toList_defer] at hi
    exact hf item ((perm_stableSort _ _).mem_iff.1 hi)
  | groupBy fields =>
    rw [rewrite, Flow.toList_map] at hi
    obtain ⟨r, hr, rfl⟩ := List.mem_map.1 hi
    obtain ⟨h₁, h₂⟩ := Flow.mem_runs hr
    exact Item.regular_ofGroup fields (hf _ h₁) fun a ha => hf a (h₂ a ha)
  | bind bindings =>
    rw [rewrite, Flow.toList_map] at hi
    obtain ⟨a, ha, rfl⟩ := List.mem_map.1 hi
    exact (hf a ha).bind ht

/-- **A transform makes regular items of regular ones.** -/
theorem Transform.regular_run {t : Transform} (ht : t.IsSane) {f : Flow Item} (w : Words)
    (hf : AllRegular f.toList) : AllRegular (t.run f w).1.toList := by
  cases t with
  | sample k =>
    rw [run]
    split
    · rename_i slots w' hs
      intro item hi
      rw [Flow.toList_defer] at hi
      exact hf item (Reservoir.mem_sample hs hi)
    · intro item hi
      rw [Flow.toList_ofList] at hi
      cases hi
  | _ => exact regular_rewrite ht hf

/-! ## Rewriting branches -/

namespace Rewrite

def KeepsRegular (f : Rewrite) : Prop :=
  ∀ items w out w', AllRegular items → f items w = (.ok out, w') → AllRegular out

variable {f : Rewrite}

theorem regular_itemsOf {v : Value} (h : v.Regular) : AllRegular (itemsOf v) := by
  unfold itemsOf
  split
  · exact List.forall_mem_map.2 fun v hv => Item.regular_ofValue (Value.regular_list_iff.1 h v hv)
  · rename_i hv
    rw [AllRegular, List.forall_mem_singleton]
    refine Item.regular_ofValue ⟨fun hk => ?_, h⟩
    cases v <;> first | exact hv _ rfl | cases hk

theorem regular_onField (hf : f.KeepsRegular) {key : String} {item : Item} {a : Attempt}
    (h : item.Regular) : (f.onField key item a).1.Regular := by
  unfold onField
  split
  · exact h
  · rename_i v hv
    have hr : v.Regular := (h.get? (Record.writable?_eq_some.1 hv).2).1
    split
    · rename_i out w' hw
      exact h.getD_assign?
        (Value.regular_list_records.2 (hf _ _ _ _ (regular_itemsOf hr) hw))
    · exact h.getD_assign? (Value.regular_of_isScalar rfl)

theorem regular_onPoints (hf : f.KeepsRegular) (key : String) : ∀ {points : List Path} {t : Tree}
    {a : Attempt}, t.Regular → (f.onPoints key points t a).1.Regular
  | [], _, _, h => h
  | p :: rest, t, a, h => by
    rw [onPoints]
    split
    · exact h
    · split
      · exact regular_onPoints hf key (h.changeItem fun _ hi => hi)
      · rename_i item hi
        exact regular_onPoints hf key (h.changeItem fun _ _ => regular_onField hf (h.itemAt? hi))

theorem regular_onSeq (hf : f.KeepsRegular) (s : Seq Item) (a : Attempt)
    (h : AllRegular s.toList) : AllRegular (f.onSeq s a).1.toList := by
  unfold onSeq
  split
  · exact h
  · split
    · rename_i hw
      exact hf _ _ _ _ h hw
    · exact allRegular_nil

/-- **Rewriting branches to regular items keeps a tree regular.** -/
theorem regular_onBranches (hf : f.KeepsRegular) {s : Session} {a : Attempt}
    (h : s.tree.Regular) : (f.onBranches s a).1.Regular := by
  unfold onBranches
  split
  · exact Tree.Regular.traverse (regular_onSeq hf) a h
  · exact regular_onPoints hf _ h

end Rewrite

structure Session.Regular (s : Session) : Prop where
  tree : s.tree.Regular
  scope : ∀ items ∈ s.scope, AllRegular items

namespace Run

variable {b : Backend} {m m' : Machine}

theorem regular_of_rewriteBranches {f : Rewrite} (hf : f.KeepsRegular)
    (h : rewriteBranches f m = .ok () m') (hm : m.session.Regular) : m'.session.Regular := by
  obtain ⟨t, w, ht, rfl⟩ := rewriteBranches_eq_ok.1 h
  have hr := Rewrite.regular_onBranches hf (a := { world := m.world }) hm.tree
  rw [ht] at hr
  exact ⟨hr, hm.scope⟩

theorem regular_of_transform {t : Transform} (ht : t.IsSane) (h : transform t m = .ok () m')
    (hm : m.session.Regular) : m'.session.Regular := by
  rw [transform_apply] at h
  split at h
  · refine regular_of_rewriteBranches (fun items w out w' hi ho => ?_) h hm
    cases ho
    exact Transform.regular_run ht w.words (by rwa [Flow.toList_ofList])
  · cases h
    refine ⟨Tree.Regular.traverse (fun s w hs => ?_) m.world.words hm.tree, hm.scope⟩
    exact Transform.regular_run ht w (by rwa [Seq.toList_flow])

end Run

/-! ## Answers of the backend -/

structure Backend.Regular (b : Backend) : Prop where
  objects : ∀ calls ids items, b.objects calls ids = .ok items → AllRegular items
  edges : ∀ calls type id items, b.edges calls type id = .ok items → AllRegular items

namespace Objects

theorem regular_carryOver : ∀ {items objects : List Item}, AllRegular items → AllRegular objects →
    AllRegular (carryOver items objects)
  | _, [], _, _ => allRegular_nil
  | items, object :: rest, hi, ho => by
    obtain ⟨h, ho⟩ := List.forall_mem_cons.1 ho
    rw [carryOver]
    split
    · exact List.forall_mem_cons.2 ⟨h, regular_carryOver hi ho⟩
    · split
      · exact List.forall_mem_cons.2 ⟨h, regular_carryOver hi ho⟩
      · rename_i item hl
        have hm := (List.mem_filter.1 (List.mem_of_getLast? hl)).1
        exact List.forall_mem_cons.2 ⟨h.addFields (hi item hm).fits_of_mem,
          regular_carryOver (fun a ha => hi a (List.mem_filter.1 ha).1) ho⟩

theorem keepsRegular_branch {b : Backend} (hb : b.Regular) : (branch b).KeepsRegular := by
  intro items w out w' hi h
  unfold branch at h
  split at h
  · cases h
    exact allRegular_nil
  · unfold Backend.askObjects at h
    cases ho : b.objects w.calls (items.filterMap Record.id?) with
    | error e => rw [ho] at h; cases h
    | ok found =>
      rw [ho] at h
      cases h
      exact regular_carryOver hi (hb.objects _ _ _ ho)

end Objects

namespace Edges

variable {b : Backend} {type : String}

theorem regular_consult (hb : b.Regular) : ∀ {items : List Item} {w w' : World}
    {answers : List (Option (List Item))}, consult b type items w = some (answers, w') →
      ∀ edges, some edges ∈ answers → AllRegular edges
  | [], _, _, _, h, edges, hm => by cases h; cases hm
  | item :: rest, w, w', answers, h, edges, hm => by
    obtain ⟨answer, more, v, rfl, hturn, hr⟩ := consult_cons h
    rcases List.mem_cons.1 hm with rfl | hm
    · cases hturn with
      | asked id _ hid he => exact hb.edges _ _ _ _ he
    · exact regular_consult hb hr edges hm

theorem regular_attached {item : Item} {answer : Option (List Item)} (h : item.Regular)
    (hid : answer.isSome = true → item.hasId = true)
    (ha : ∀ edges, some edges = answer → AllRegular edges) :
    (attached type item answer).Regular := by
  cases answer with
  | none => exact h
  | some edges =>
    by_cases ht : type = idField
    · -- an identifier that is there is not set
      show Item.Regular (item.set type _)
      rw [Record.set, if_pos ⟨ht, hid rfl⟩]
      exact h
    · exact h.set ((Value.regular_list_records.2 (ha edges rfl)).fits ht)

end Edges

/-! ## Putting results back -/

namespace Replant

variable {origins : List Leaf} {results : List Item} {sub : Option Cursor} {into : Placed}

theorem regular_putAll {t : Tree} : ∀ {ps : List (Path × Item)}, t.Regular →
    (∀ a ∈ ps, a.2.Regular) → (t.putAll ps).Regular := by
  intro ps h ha
  induction ps generalizing t with
  | nil => exact h
  | cons a ps ih =>
    obtain ⟨hr, ha⟩ := List.forall_mem_cons.1 ha
    exact ih (h.changeItem fun _ _ => hr) ha

theorem regular_prune : ∀ {removed points : List Path} {t : Tree}, t.Regular →
    (prune removed points t).2.Regular
  | [], _, _, h => h
  | p :: rest, _, _, h => by
    rw [prune]
    exact regular_prune h.removeAt

theorem regular_replantOrReplace (hi : into.tree.Regular) (hr : AllRegular results) :
    (replantOrReplace origins results sub into).tree.Regular := by
  cases h : homeless origins results with
  | true =>
    rw [replantOrReplace_of_homeless h]
    exact Tree.regular_anon.2 hr
  | false =>
    rw [(replanted_of_settled _ _ h).tree]
    refine regular_prune (regular_putAll hi fun a ha => ?_)
    obtain ⟨s, o, leaf, -, hs, -⟩ := mem_placements.1 ha
    exact hr a.2 (List.mem_of_getElem? hs)

theorem regular_hangAll {branch : Path → Placed} (hb : ∀ p, (branch p).tree.Regular) :
    ∀ {paths : List Path} {whole : Placed}, whole.tree.Regular →
      (hangAll branch paths whole).tree.Regular
  | [], _, h => h
  | p :: rest, whole, h => by
    rw [hangAll, List.foldl_cons, ← hangAll]
    refine regular_hangAll hb ?_
    rw [hang_tree]
    refine h.changeSubtree fun _ _ => ?_
    unfold lift
    cases hs : (branch p).tree.single? with
    | none => exact hb p
    | some s => exact Tree.regular_seq.2 ((hb p).single? hs)

theorem regular_itemsAt {t : Tree} (h : t.Regular) (p : Path) : AllRegular (itemsAt t p) := by
  unfold itemsAt Tree.seqAt?
  split
  · rename_i s hs
    exact Tree.regular_seq.1 (h.subtree? hs)
  · exact allRegular_nil

/-- **The outcome of a subquery, put back, is regular.** -/
theorem regular_place {child : Session} {outer : Placed} (ho : outer.tree.Regular)
    (hc : child.tree.Regular) : (place origins child outer).tree.Regular := by
  unfold place
  split
  · rename_i s hs
    exact regular_replantOrReplace ho (hc.single? hs)
  · rw [replantUnder_eq]
    exact regular_hangAll (fun p => regular_replantOrReplace (Tree.regular_force.2 ho)
      (regular_itemsAt hc p)) hc

end Replant

/-! ## Runs -/

namespace Plan

mutual

/--
Whether the items of all literals are regular, no projection names a field twice and no binding
names the identifier.
-/
def Regular : Plan → Prop
  | literal values => AllRegular (values.map Item.ofValue)
  | json document => (Tree.ofJson document).Regular
  | transform t q => t.IsSane ∧ q.Regular
  | combine _ operands => RegularOperands operands
  | difference l r => l.Regular ∧ r.Regular
  | apply s q => s.Regular ∧ q.Regular
  | assocHere _ => True
  | aggregate q | nest _ q | target _ q | assoc _ q | obj q | exist q => q.Regular
termination_by structural p => p

def RegularOperands : List Plan → Prop
  | [] => True
  | p :: rest => p.Regular ∧ RegularOperands rest
termination_by structural ps => ps

end

theorem RegularOperands.of_mem {p : Plan} : ∀ {operands : List Plan}, RegularOperands operands →
    p ∈ operands → p.Regular
  | q :: rest, h, hp => by
    rcases List.mem_cons.1 hp with rfl | hp
    · exact h.1
    · exact of_mem h.2 hp

end Plan

namespace Session

variable {s : Session} {t : Tree}

theorem Regular.reset (h : s.Regular) (ht : t.Regular) : (s.reset t).Regular := ⟨ht, h.scope⟩

theorem Regular.anon (h : s.Regular) {f : Flow Item} (hf : AllRegular f.toList) :
    (s.reset (.anon (.lazy f))).Regular := h.reset (Tree.regular_anon.2 hf)

theorem Regular.nest (key : String) (h : s.Regular) : (s.nest key).Regular :=
  ⟨Tree.regular_map.2 fun _ he => List.mem_singleton.1 he ▸ h.tree, h.scope⟩

theorem regular_within {items : List Item} (h : AllRegular items) : (within items).Regular :=
  ⟨Tree.regular_anon.2 h, fun _ hs => by cases hs; exact h⟩

theorem regular_ofScope {scope : Option (List Item)} (h : ∀ items ∈ scope, AllRegular items) :
    (ofScope scope).Regular := by
  cases scope with
  | none => exact ⟨Tree.regular_empty, h⟩
  | some items => exact regular_within (h items rfl)

theorem regular_existence {scope : Option (List Item)} (h : ∀ items ∈ scope, AllRegular items)
    (found : Bool) : AllRegular (existence scope found) := by
  cases found with
  | false => exact allRegular_nil
  | true =>
    have he : Item.Regular ((Record.empty : Item).set existsField (.bool true)) :=
      Item.regular_empty.set (Value.fits_of_isScalar rfl _)
    intro item hi
    rw [List.mem_singleton.1 hi]
    cases scope with
    | none => exact he
    | some items =>
      refine he.set (Value.Regular.fits (Value.regular_list_iff.2 fun v hv => ?_) (by decide))
      obtain ⟨a, ha, hid⟩ := List.mem_filterMap.1 hv
      exact Value.isElement_of_isScalar (((h items rfl a ha).get? hid).2 rfl)

end Session

namespace Run

variable {b : Backend} {type : String} {m m' : Machine}

theorem regular_of_attach (hb : b.Regular) (h : attach b type m = .ok () m')
    (hm : m.session.Regular) : m'.session.Regular := by
  obtain ⟨answers, w, hc, rfl⟩ := (attach_answered hm.tree.addressable.isOpen).1 h
  refine ⟨Replant.regular_putAll (Tree.regular_force.2 hm.tree) fun a ha => ?_, hm.scope⟩
  obtain ⟨⟨leaf, answer⟩, hz, rfl⟩ := List.mem_map.1 ha
  obtain ⟨hl, hs⟩ := List.of_mem_zip hz
  refine Edges.regular_attached (hm.tree.leaves _ (List.mem_map_of_mem hl))
    (Edges.hasId_of_consult hc _ hz) fun edges he => ?_
  exact Edges.regular_consult hb hc edges (he ▸ hs)

end Run

namespace Plan

variable {b : Backend}

/-- **A run keeps the items of a session regular.** -/
theorem run_regular (hb : b.Regular) (p : Plan) : ∀ {m m' : Machine}, p.Regular →
    run b p m = .ok () m' → m.session.Regular → m'.session.Regular := by
  have operand : ∀ {q : Plan}, q.Regular →
      (∀ {m m' : Machine}, q.Regular → run b q m = .ok () m' → m.session.Regular →
        m'.session.Regular) →
      ∀ {scope : Option (List Item)}, (∀ items ∈ scope, AllRegular items) →
        ∀ {t : Tree}, Leaves b q scope t → t.Regular := by
    rintro q hq ih scope hs t ⟨w, after, hr, rfl⟩
    exact (ih hq hr (Session.regular_ofScope hs)).tree
  induction p using Plan.induction with
  | literal values =>
    intro m m' hp h hm
    cases h
    exact hm.anon (by rwa [Flow.toList_ofList])
  | json document =>
    intro m m' hp h hm
    cases h
    exact hm.reset hp
  | transform t q ih =>
    intro m m' hp h hm
    obtain ⟨mq, hq, h⟩ := run_transform.1 h
    exact Run.regular_of_transform hp.1 h (ih hp.2 hq hm)
  | aggregate q ih =>
    intro m m' hp h hm
    obtain ⟨mq, hq, rfl⟩ := run_aggregate.1 h
    have hr := ih hp hq hm
    exact hr.anon hr.tree.leafFlow
  | combine how operands ih =>
    intro m m' hp h hm
    have ht : ∀ q ∈ operands, ∀ t, Leaves b q m.session.scope t → t.Regular := fun q hq t ht =>
      operand (RegularOperands.of_mem hp hq) (ih q hq) hm.scope ht
    rcases run_combine h with ⟨f, ts, w, hf, hts, rfl⟩ | ⟨-, merged, m₁, hr, rfl⟩
    · have hfs : ∀ g ∈ ts.map how.flowOf, AllRegular g.toList := by
        refine List.forall_mem_map.2 fun t hm => ?_
        obtain ⟨q, hq, hl⟩ := hts t hm
        cases how with
        | indexOr => exact (ht q hq t hl).itemFlow
        | _ => exact (ht q hq t hl).leafFlow
      refine hm.anon fun item hi => ?_
      obtain ⟨g, hg, hi⟩ : ∃ g ∈ ts.map how.flowOf, item ∈ g.toList := by
        rcases hf with rfl | rfl
        · exact SetAlgebra.mem_intersect hi
        · exact SetAlgebra.mem_union hi
      exact hfs g hg item hi
    · obtain ⟨hs, hg⟩ := runMerge_induction Tree.Regular
        (fun t u v ht hu h => Tree.regular_merge ht hu h) ht (fun _ h => by cases h) hr
      rw [hs]
      cases merged with
      | none => exact hm.reset Tree.regular_empty
      | some t => exact hm.reset (hg t rfl)
  | difference l r ihl _ =>
    intro m m' hp h hm
    obtain ⟨t, u, w, ht, -, rfl⟩ := run_difference h
    refine hm.anon fun item hi => ?_
    exact (operand hp.1 ihl hm.scope ht).leafFlow item (SetAlgebra.mem_difference hi)
  | nest key q ih =>
    intro m m' hp h hm
    obtain ⟨mq, hq, rfl⟩ := run_nest.1 h
    exact (ih hp hq hm).nest key
  | target names q ih =>
    intro m m' hp h hm
    obtain ⟨mq, hq, rfl⟩ := run_target.1 h
    have hr := ih hp hq hm
    exact ⟨hr.tree, hr.scope⟩
  | apply s q ihs ihq =>
    intro m m' hp h hm
    obtain ⟨mq, hq, child, hs, rfl⟩ := run_apply.1 h
    have hr := ihq hp.2 hq hm
    have hc := ihs hp.1 hs (Session.regular_within hr.tree.leaves)
    exact ⟨Replant.regular_place (Tree.regular_force.2 hr.tree) hc.tree, hr.scope⟩
  | assoc type q ih =>
    intro m m' hp h hm
    obtain ⟨mq, hq, h⟩ := run_assoc.1 h
    exact Run.regular_of_attach hb h (ih hp hq hm)
  | assocHere type =>
    intro m m' _ h hm
    exact Run.regular_of_attach hb h hm
  | obj q ih =>
    intro m m' hp h hm
    obtain ⟨mq, hq, h⟩ := run_obj.1 h
    exact Run.regular_of_rewriteBranches (Objects.keepsRegular_branch hb) h (ih hp hq hm)
  | exist q ih =>
    intro m m' hp h hm
    obtain ⟨found, w, rfl⟩ := run_exist h
    exact hm.reset (Tree.regular_anon.2 (Session.regular_existence hm.scope found))

end Plan

end GraphQuery
