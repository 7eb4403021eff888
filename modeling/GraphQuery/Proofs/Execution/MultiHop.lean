import GraphQuery.Proofs.Execution.Branches
/-!
# Queries of several hops

A query of several hops attaches edges to the items of a list, rewrites what it has attached, and
attaches again further out, or has a query of the same kind do so at every leaf.  What it makes of
an item does not depend on the items next to it (`MultiHop.act`), so its result on a list is the
results on the members of the list one after another (`MultiHop.run_onLiteral`).
-/

namespace GraphQuery

def Transform.draws : Transform → Bool
  | sample _ => true
  | _ => false

/-- Hops, from what is attached first. -/
inductive MultiHop where
  | attach (type : String)
  | rewrite (t : Transform) (drawless : t.draws = false) (p : MultiHop)
  | resolve (p : MultiHop)
  | extend (type : String) (p : MultiHop)
  | visit (s p : MultiHop)

namespace MultiHop

/-- The plan of some hops, given the one that attaches the first edges. -/
def build (start : String → Plan) : MultiHop → Plan
  | attach type => start type
  | rewrite t _ p => .transform t (p.build start)
  | resolve p => .obj (p.build start)
  | extend type p => .assoc type (p.build start)
  | visit s p => .apply (s.build .assocHere) (p.build start)

def onLiteral (p : MultiHop) (ids : List Value) : Plan :=
  p.build fun type => .assoc type (.literal ids)

def here (p : MultiHop) : Plan := p.build .assocHere

def key : MultiHop → String
  | attach type => type
  | rewrite _ _ p => p.key
  | resolve p => p.key
  | extend type _ => type
  | visit s _ => s.key

section

variable (objects : List Value → Except BackendError (List Item))
  (edges : String → Value → Except BackendError (List Item))

def resolved (items : List Item) : Option (List Item) :=
  match items.filterMap Record.id? with
  | [] => some []
  | ids => (objects ids).toOption.map (Objects.carryOver items)

def act : MultiHop → Item → Option Branch
  | attach type, x => Branch.attach edges type x
  | rewrite t _ p, x => (p.act x).bind
      (Branch.rewrite (fun items => some (t.rewrite (.ofList items)).toList) p.key)
  | resolve p, x => (p.act x).bind (Branch.rewrite (resolved objects) p.key)
  | extend type p, x => (p.act x).bind fun br => Branch.attach edges type br.item
  | visit s p, x => (p.act x).bind fun br => Branch.visit s.act br.item

end

end MultiHop

/-! ## Identifiers stay -/

theorem Item.id?_changeWithin {f : Item → Item} {p : Path} {item : Item}
    (h : p = [] → (f item).id? = item.id?) : (item.changeWithin f p).id? = item.id? := by
  induction p using Item.path_induction with
  | nil => exact h rfl
  | step name k p ih =>
    cases hc : item.child? name k with
    | none => rw [Item.changeWithin_of_child?_none hc]
    | some inner =>
      obtain ⟨vs, hv, hk⟩ := Item.child?_eq_some.1 hc
      rw [Item.changeWithin_cons_cons hv hk, Item.id?_withElements]
  | stray p hp hc => rw [hc]

theorem Item.path_ne_nil_of_mem_leaves {item : Item} (h : item.isLeaf = false) {l : Leaf}
    (hl : l ∈ item.leaves) : l.path ≠ [] := by
  rw [Item.leaves_eq, if_neg (by simp [h]), mem_leavesOfFields] at hl
  obtain ⟨f, l', -, -, rfl⟩ := hl
  exact List.cons_ne_nil _ _

namespace Branch

variable {objects : List Value → Except BackendError (List Item)}
  {edges : String → Value → Except BackendError (List Item)} {type key : String}
  {g : List Item → Option (List Item)} {x : Item} {br br' : Branch}

/-- A branch has the identifier that it started with, and without one it is as it was. -/
structure Keeps (x : Item) (br : Branch) : Prop where
  id : br.item.id? = x.id?
  same : x.id? = none → br.item = x ∧ br.points = []

theorem Keeps.beq (h : Keeps x br) : (x == br.item) = true := by
  cases hx : x.id? with
  | none =>
    rw [(h.same hx).1]
    exact Item.beq_self x
  | some id => exact Item.beq_of_id? hx (h.id.trans hx)

theorem id?_attachAll : ∀ {as : Edges.Answered} {item : Item}, (∀ a ∈ as, a.1.path ≠ []) →
    (attachAll type as item).2.id? = item.id?
  | [], _, _ => rfl
  | (_, none) :: rest, item, h => by
    have ih : (attachAll type rest item).2.id? = item.id? :=
      id?_attachAll fun a ha => h a (List.mem_cons_of_mem _ ha)
    exact ih
  | (leaf, some found) :: rest, item, h => by
    rw [attachAll]
    dsimp only
    rw [id?_attachAll fun a ha => h a (List.mem_cons_of_mem _ ha)]
    exact Item.id?_changeWithin fun hp => absurd hp (h _ List.mem_cons_self)

theorem fst_of_answered {leaf : Leaf} {a : Leaf × Option (List Item)}
    (h : answered edges type leaf = some a) : a.1 = leaf := by
  unfold answered at h
  split at h
  · cases h
    rfl
  · obtain ⟨found, -, rfl⟩ := Option.map_eq_some_iff.1 h
    rfl

theorem keeps_attach (hb : Keeps x br) (hx : x.isLeaf = true)
    (h : attach edges type br.item = some br') : Keeps x br' := by
  obtain ⟨as, has, rfl⟩ := Option.map_eq_some_iff.1 h
  cases hl : br.item.isLeaf with
  | true =>
    rw [Item.leaves_of_isLeaf hl] at has
    obtain ⟨a, _, ha, hnil, rfl⟩ := mapM_cons_eq_some.1 has
    cases hnil
    unfold answered at ha
    cases hid : br.item.id? with
    | none =>
      simp only [hid, Option.some.injEq] at ha
      subst ha
      exact ⟨hb.id, fun hn => ⟨(hb.same hn).1, rfl⟩⟩
    | some id =>
      simp only [hid] at ha
      obtain ⟨found, -, rfl⟩ := Option.map_eq_some_iff.1 ha
      have hh : br.item.hasId = true := by rw [Record.hasId, hid]; rfl
      refine ⟨(Record.id?_set _ _ _ hh).trans hb.id, fun hn => ?_⟩
      rw [hb.id, hn] at hid
      cases hid
  | false =>
    refine ⟨(id?_attachAll fun a ha => ?_).trans hb.id, fun hn => ?_⟩
    · obtain ⟨leaf, hleaf, hf⟩ := mem_of_mapM has a ha
      rw [fst_of_answered hf]
      exact Item.path_ne_nil_of_mem_leaves hl hleaf
    · rw [(hb.same hn).1, hx] at hl
      cases hl

theorem id?_rewriteField {item item' : Item} (h : rewriteField g key item = some item') :
    item'.id? = item.id? := by
  unfold rewriteField at h
  split at h
  · cases h
    rfl
  · obtain ⟨items, -, rfl⟩ := Option.map_eq_some_iff.1 h
    cases ha : item.assign? key (.list (items.map .record)) with
    | none => rfl
    | some r => exact Record.id?_of_assign? ha

theorem id?_rewriteAll : ∀ {points : List Path} {item item' : Item},
    rewriteAll g key points item = some item' → item'.id? = item.id?
  | [], _, _, h => by
    cases h
    rfl
  | p :: rest, item, item', h => by
    rw [rewriteAll] at h
    split at h
    · exact id?_rewriteAll h
    · rename_i inner hp
      obtain ⟨inner', hi, h⟩ := Option.bind_eq_some_iff.1 h
      rw [id?_rewriteAll h]
      refine Item.id?_changeWithin fun hn => ?_
      rw [hn] at hp
      cases hp
      exact id?_rewriteField hi

theorem keeps_rewrite (hb : Keeps x br) (h : rewrite g key br = some br') : Keeps x br' := by
  obtain ⟨item, hi, rfl⟩ := Option.map_eq_some_iff.1 h
  refine ⟨(id?_rewriteAll hi).trans hb.id, fun hn => ?_⟩
  obtain ⟨hs, hp⟩ := hb.same hn
  rw [hp] at hi
  cases hi
  exact ⟨hs, hp⟩

theorem id?_putAll : ∀ {ps : List (Path × Item)} {item : Item}, (∀ p ∈ ps, p.1 ≠ []) →
    (putAll ps item).id? = item.id?
  | [], _, _ => rfl
  | p :: ps, item, h => by
    have ih := @id?_putAll ps (item.changeWithin (fun _ => p.2) p.1)
      fun q hq => h q (List.mem_cons_of_mem p hq)
    exact ih.trans (Item.id?_changeWithin fun hp => absurd hp (h p List.mem_cons_self))

theorem fst_of_outcome {act : Item → Option Branch} {leaf : Leaf} {o : Outcome}
    (h : outcome act leaf = some o) : o.1 = leaf ∧ act leaf.item = some o.2 := by
  obtain ⟨br, hb, rfl⟩ := Option.map_eq_some_iff.1 h
  exact ⟨rfl, hb⟩

theorem keeps_visit {act : Item → Option Branch}
    (ha : ∀ y br, y.isLeaf = true → act y = some br → Keeps y br) (hb : Keeps x br)
    (hx : x.isLeaf = true) (h : visit act br.item = some br') : Keeps x br' := by
  obtain ⟨os, hos, rfl⟩ := Option.map_eq_some_iff.1 h
  cases hl : br.item.isLeaf with
  | true =>
    rw [Item.leaves_of_isLeaf hl] at hos
    obtain ⟨o, _, ho, hnil, rfl⟩ := mapM_cons_eq_some.1 hos
    cases hnil
    obtain ⟨br₁, hbr, rfl⟩ := Option.map_eq_some_iff.1 ho
    have hk := ha _ _ hl hbr
    refine ⟨hk.id.trans hb.id, fun hn => ?_⟩
    obtain ⟨hi, hp⟩ := hk.same (hb.id.trans hn)
    refine ⟨hi.trans (hb.same hn).1, ?_⟩
    simp [pointsOfAll, hp]
  | false =>
    refine ⟨(id?_putAll fun p hp => ?_).trans hb.id, fun hn => ?_⟩
    · obtain ⟨o, ho, rfl⟩ := List.mem_map.1 hp
      obtain ⟨leaf, hleaf, hf⟩ := mem_of_mapM hos o ho
      rw [(fst_of_outcome hf).1]
      exact Item.path_ne_nil_of_mem_leaves hl hleaf
    · rw [(hb.same hn).1, hx] at hl
      cases hl

end Branch

namespace MultiHop

variable {objects : List Value → Except BackendError (List Item)}
  {edges : String → Value → Except BackendError (List Item)}

/-- **Hops from a leaf keep its identifier**, and leave it as it is if it has none. -/
theorem act_keeps : ∀ (p : MultiHop) (x : Item) (br : Branch), x.isLeaf = true →
    p.act objects edges x = some br → Branch.Keeps x br
  | attach type, x, br, hx, h => by
    have hk : Branch.Keeps x ⟨x, []⟩ := ⟨rfl, fun _ => ⟨rfl, rfl⟩⟩
    exact Branch.keeps_attach hk hx h
  | rewrite t _ p, x, br, hx, h => by
    obtain ⟨br₀, h₀, h⟩ := Option.bind_eq_some_iff.1 h
    exact Branch.keeps_rewrite (act_keeps p x br₀ hx h₀) h
  | resolve p, x, br, hx, h => by
    obtain ⟨br₀, h₀, h⟩ := Option.bind_eq_some_iff.1 h
    exact Branch.keeps_rewrite (act_keeps p x br₀ hx h₀) h
  | extend type p, x, br, hx, h => by
    obtain ⟨br₀, h₀, h⟩ := Option.bind_eq_some_iff.1 h
    exact Branch.keeps_attach (act_keeps p x br₀ hx h₀) hx h
  | visit s p, x, br, hx, h => by
    obtain ⟨br₀, h₀, h⟩ := Option.bind_eq_some_iff.1 h
    exact Branch.keeps_visit (act_keeps s) (act_keeps p x br₀ hx h₀) hx h

end MultiHop

/-! ## Steps of a run -/

namespace Run

variable {objects : List Value → Except BackendError (List Item)}
  {edges : String → Value → Except BackendError (List Item)} {type key : String}
  {m m' : Machine} {bs : List Branch} {s : Seq Item}

/-- Whether a step succeeds exactly where there is an outcome, and then holds it. -/
structure Leads (step : Run Unit) (m : Machine) (outcome : Option (List Branch)) (key : String) :
    Prop where
  holds : ∀ m', step m = .ok () m' → ∃ bs, outcome = some bs ∧ m'.session.Holds key bs
  succeeds : ∀ bs, outcome = some bs → ∃ m', step m = .ok () m'

theorem Leads.andThen {x y : Run Unit} {α : Type} {xs : List α} {f : α → Option Branch}
    {g : Branch → Option Branch} {key' : String} (hx : Leads x m (xs.mapM f) key)
    (hy : ∀ {mq bs}, mq.session.Holds key bs → Leads y mq (bs.mapM g) key') :
    Leads (do x; y) m (xs.mapM fun a => (f a).bind g) key' where
  holds m' h := by
    obtain ⟨mq, hmq, h⟩ := then_eq_ok.1 h
    obtain ⟨bs, hbs, hq⟩ := hx.holds mq hmq
    obtain ⟨cs, hcs, hm⟩ := (hy hq).holds m' h
    exact ⟨cs, mapM_bind.2 ⟨bs, hbs, hcs⟩, hm⟩
  succeeds cs h := by
    obtain ⟨bs, hbs, hcs⟩ := mapM_bind.1 h
    obtain ⟨mq, hmq⟩ := hx.succeeds bs hbs
    obtain ⟨bs', hbs', hq⟩ := hx.holds mq hmq
    rw [hbs] at hbs'
    cases hbs'
    obtain ⟨m', hm⟩ := (hy hq).succeeds cs hcs
    exact ⟨m', then_eq_ok.2 ⟨mq, hmq, hm⟩⟩

theorem attach_leads (hs : m.session.tree = .anon s) :
    Leads (attach (.ofFunctions objects edges) type) m
      (s.toList.mapM (Branch.attach edges type)) type := by
  have hf : m.session.tree.force = .ofItems ([] ++ s.toList) := by rw [hs]; rfl
  have hl : m.session.tree.leaves = leavesFrom 0 s.toList := by rw [hs, leaves_anon_eq]
  refine ⟨fun m' h => ?_, fun bs hbs => ?_⟩
  · obtain ⟨found, w, hlook, rfl⟩ := attach_eq_ok.1 h
    rw [hl] at hlook
    obtain ⟨as, has, rfl⟩ := Branch.lookup_ofFunctions.1 ⟨w, hlook⟩
    obtain ⟨bs, hbs, hp, ht⟩ := (Branch.attach_branches s.toList [] _ _).1 ⟨as, has, rfl⟩
    refine ⟨bs, hbs, ?_, ?_⟩
    · rw [hf]
      exact ht
    · rw [hf]
      exact congrArg (fun points => some (Cursor.mk points type)) hp
  · obtain ⟨as, has, -⟩ := (Branch.attach_branches s.toList [] _ _).2 ⟨bs, hbs, rfl, rfl⟩
    obtain ⟨w, hlook⟩ :=
      (@Branch.lookup_ofFunctions objects edges type _ m.world _).2 ⟨as, has, rfl⟩
    exact ⟨_, attach_eq_ok.2 ⟨_, w, by rw [hl]; exact hlook, rfl⟩⟩

theorem rewriteBranches_leads {f : Rewrite} {g : List Item → Option (List Item)}
    (hf : f.Computes g) (hm : m.session.Holds key bs) :
    Leads (rewriteBranches f) m (bs.mapM (Branch.rewrite g key)) key := by
  have ho : f.onBranches m.session { world := m.world } =
      f.onPoints key (Branch.pointsFrom 0 bs) (.ofItems ([] ++ bs.map Branch.item))
        { world := m.world } := by
    unfold Rewrite.onBranches
    rw [hm.cursor, hm.tree]
    rfl
  refine ⟨fun m' h => ?_, fun cs hcs => ?_⟩
  · obtain ⟨t, w, hr, rfl⟩ := rewriteBranches_eq_ok.1 h
    rw [ho] at hr
    obtain ⟨cs, hcs, rfl⟩ := (Branch.onPoints_branches hf bs [] m.world t).1 ⟨w, hr⟩
    refine ⟨cs, hcs, rfl, ?_⟩
    rw [Branch.pointsFrom_rewrite 0 hcs]
    exact hm.cursor
  · obtain ⟨w, hr⟩ := (Branch.onPoints_branches hf bs [] m.world _).2 ⟨cs, hcs, rfl⟩
    exact ⟨_, rewriteBranches_eq_ok.2 ⟨_, w, by rw [ho]; exact hr, rfl⟩⟩

theorem Leads.congr {x y : Run Unit} {outcome : Option (List Branch)} {m₀ : Machine}
    (h : Leads x m₀ outcome key) (hxy : y m = x m₀) : Leads y m outcome key where
  holds m' hm := h.holds m' (hxy ▸ hm)
  succeeds bs hbs := hxy ▸ h.succeeds bs hbs

theorem computes_transformItems {t : Transform} (h : t.draws = false) :
    (transformItems t).Computes fun items => some (t.rewrite (.ofList items)).toList := by
  intro items w out
  have ht : transformItems t items w = (.ok (t.rewrite (.ofList items)).toList, w) := by
    cases t <;> first | rfl | cases h
  rw [ht]
  simp

theorem transform_leads {t : Transform} (ht : t.draws = false) (hm : m.session.Holds key bs) :
    Leads (transform t) m (bs.mapM (Branch.rewrite
      (fun items => some (t.rewrite (.ofList items)).toList) key)) key := by
  refine (rewriteBranches_leads (computes_transformItems ht) hm).congr ?_
  rw [transform_apply, hm.cursor]

theorem attach_leads_of_holds (hm : m.session.Holds key bs) :
    Leads (attach (.ofFunctions objects edges) type) m
      (bs.mapM fun br => Branch.attach edges type br.item) type := by
  have h : Leads (attach (.ofFunctions objects edges) type) m
      ((bs.map Branch.item).mapM (Branch.attach edges type)) type := attach_leads hm.tree
  rwa [List.mapM_map] at h

theorem computes_branch :
    (Objects.branch (.ofFunctions objects edges)).Computes (MultiHop.resolved objects) := by
  intro items w out
  unfold Objects.branch MultiHop.resolved
  cases items.filterMap Record.id? with
  | nil => simp [eq_comm]
  | cons id ids =>
    dsimp only
    rw [Backend.askObjects_ofFunctions]
    cases objects (id :: ids) <;> simp [Except.map, Except.toOption]

end Run

/-! ## Putting the results of hops back -/

namespace Branch

variable {act : Item → Option Branch}

theorem mapM_outcome : ∀ {leaves : List Leaf} {os : List Outcome},
    leaves.mapM (outcome act) = some os ↔ ∃ cs, (leaves.map Leaf.item).mapM act = some cs ∧
      cs.length = leaves.length ∧ os = leaves.zip cs
  | [], os => by
    constructor
    · rintro ⟨⟩
      exact ⟨[], rfl, rfl, rfl⟩
    · rintro ⟨_, ⟨⟩, -, rfl⟩
      rfl
  | l :: ls, os => by
    rw [mapM_cons_eq_some, List.map_cons]
    constructor
    · rintro ⟨_, _, ho, hrest, rfl⟩
      obtain ⟨br, hbr, rfl⟩ := Option.map_eq_some_iff.1 ho
      obtain ⟨cs, hcs, hn, rfl⟩ := mapM_outcome.1 hrest
      exact ⟨br :: cs, mapM_cons_eq_some.2 ⟨br, cs, hbr, hcs, rfl⟩, congrArg _ hn, rfl⟩
    · rintro ⟨_, hall, hn, rfl⟩
      obtain ⟨br, cs, hbr, hcs, rfl⟩ := mapM_cons_eq_some.1 hall
      exact ⟨(l, br), _, by rw [outcome, hbr]; rfl,
        mapM_outcome.2 ⟨cs, hcs, Nat.succ.inj hn, rfl⟩, rfl⟩

theorem filterMap_outward {pairs : List (Leaf × Item)} (hm : Replant.Matched pairs) :
    ∀ (os : List Outcome) (k : Nat),
      (∀ (j : Nat) o, os[j]? = some o → pairs[k + j]? = some (o.1, o.2.item)) →
      (pointsFrom k (os.map Prod.snd)).filterMap (Replant.outward (pairs.map Prod.fst)
        (Replant.assign (pairs.map Prod.fst) [] (pairs.map Prod.snd))) = pointsOfAll os
  | [], _, _ => rfl
  | o :: os, k, h => by
    have hk : pairs[k]? = some (o.1, o.2.item) := h 0 o rfl
    have ho : ∀ ps : List Path, (ps.map (inside k)).filterMap
        (Replant.outward (pairs.map Prod.fst)
          (Replant.assign (pairs.map Prod.fst) [] (pairs.map Prod.snd))) =
        ps.map (o.1.path ++ ·) := fun ps => by
      induction ps with
      | nil => rfl
      | cons p ps ih =>
        rw [List.map_cons, List.filterMap_cons, inside, Replant.outward_pairs hm hk, ih]
        rfl
    rw [List.map_cons, pointsFrom, List.filterMap_append, ho,
      filterMap_outward hm os (k + 1) fun j a ha => ?_]
    · rfl
    · rw [Nat.add_assoc, Nat.add_comm 1]
      exact h (j + 1) a ha

/-- **Results that keep their leaves go back to them**, with their points. -/
theorem replant_outcomes {m child : Machine} {key : String} {cs : List Branch} {os : List Outcome}
    (hos : os = m.session.tree.leaves.zip cs) (hn : cs.length = m.session.tree.leaves.length)
    (hk : ∀ o ∈ os, Keeps o.1.item o.2) (hc : child.session.Holds key cs) :
    (m.replant child).session.tree = m.session.tree.force.putAll (resultsOf os) ∧
      (m.replant child).session.cursor = some ⟨pointsOfAll os, key⟩ := by
  have hfst : os.map Prod.fst = m.session.tree.leaves := by
    rw [hos]
    exact List.map_fst_zip (Nat.le_of_eq hn.symm)
  have hsnd : os.map Prod.snd = cs := by
    rw [hos]
    exact List.map_snd_zip (Nat.le_of_eq hn)
  have hm : Replant.Matched (os.map fun o => (o.1, o.2.item)) := by
    intro a ha
    obtain ⟨o, ho, rfl⟩ := List.mem_map.1 ha
    exact (hk o ho).beq
  have hleaves : (os.map fun o => (o.1, o.2.item)).map Prod.fst = m.session.tree.leaves := by
    rw [List.map_map, ← hfst]
    rfl
  have hitems : (os.map fun o => (o.1, o.2.item)).map Prod.snd = cs.map Branch.item := by
    rw [List.map_map, ← hsnd, List.map_map]
    rfl
  have hr := Replant.replantOrReplace_pairs hm (some ⟨pointsFrom 0 cs, key⟩) m.placed
  have hpoints := filterMap_outward hm os 0 fun j o ho => by
    rw [Nat.zero_add, List.getElem?_map, ho]
    rfl
  rw [hsnd, hleaves, hitems] at hpoints
  rw [hleaves, hitems, Replant.carried, hpoints, List.map_map] at hr
  have hplace : Replant.place m.session.tree.leaves child.session m.placed =
      Replant.replantOrReplace m.session.tree.leaves (cs.map Branch.item)
        (some ⟨pointsFrom 0 cs, key⟩) m.placed := by
    unfold Replant.place
    rw [hc.tree, hc.cursor]
    rfl
  unfold Machine.replant
  rw [hplace, hr]
  exact ⟨rfl, rfl⟩

end Branch

namespace MultiHop

variable {objects : List Value → Except BackendError (List Item)}
  {edges : String → Value → Except BackendError (List Item)}

def StartsAt (b : Backend) (start : String → Plan) (items : List Item) (m : Machine) : Prop :=
  ∀ type, ∃ (m₀ : Machine) (s : Seq Item), m₀.session.tree = .anon s ∧ s.toList = items ∧
    Plan.run b (start type) m = Run.attach b type m₀

theorem startsAt_literal {b : Backend} {m : Machine} (ids : List Value) :
    StartsAt b (fun type => .assoc type (.literal ids)) (ids.map Item.ofValue) m :=
  fun _ => ⟨⟨m.session.reset (.anon (.lazy (.ofList (ids.map Item.ofValue)))), m.world⟩,
    .lazy (.ofList (ids.map Item.ofValue)), rfl, Flow.toList_ofList _, rfl⟩

theorem applySubquery_leads {s : MultiHop} {m : Machine} {bs : List Branch} {key : String}
    (hs : ∀ {items : List Item} {m : Machine},
      StartsAt (.ofFunctions objects edges) .assocHere items m →
        Run.Leads (Plan.run (.ofFunctions objects edges) s.here) m
          (items.mapM (s.act objects edges)) s.key)
    (hm : m.session.Holds key bs) :
    Run.Leads (Run.applySubquery (Plan.run (.ofFunctions objects edges) s.here)) m
      (bs.mapM fun br => Branch.visit (s.act objects edges) br.item) s.key := by
  have hl : m.session.tree.leaves = leavesFrom 0 (bs.map Branch.item) := by
    rw [hm.tree]
    exact leaves_anon_eq _
  have hf : m.session.tree.force = .ofItems ([] ++ bs.map Branch.item) := by
    rw [hm.tree]
    rfl
  have hd := @hs (m.session.tree.leaves.map Leaf.item) m.descend fun _ =>
    ⟨m.descend, .buffered (m.session.tree.leaves.map Leaf.item), rfl, rfl, rfl⟩
  have hv : ∀ cs, bs.mapM (fun br => Branch.visit (s.act objects edges) br.item) = some cs ↔
      (bs.map Branch.item).mapM (Branch.visit (s.act objects edges)) = some cs := fun cs => by
    rw [List.mapM_map]
    rfl
  refine ⟨fun m' h => ?_, fun cs h => ?_⟩
  · obtain ⟨child, hc, rfl⟩ := Run.applySubquery_eq_ok.1 h
    obtain ⟨cs, hcs, hheld⟩ := hd.holds child hc
    have hn : cs.length = m.session.tree.leaves.length := by
      rw [length_mapM hcs, List.length_map]
    have hos := Branch.mapM_outcome.2 ⟨cs, hcs, hn, rfl⟩
    have hk : ∀ o ∈ m.session.tree.leaves.zip cs, Branch.Keeps o.1.item o.2 := fun o ho => by
      obtain ⟨leaf, hleaf, hf⟩ := mem_of_mapM hos o ho
      obtain ⟨h₁, h₂⟩ := Branch.fst_of_outcome hf
      rw [h₁]
      exact act_keeps s _ _ (Tree.isLeaf_of_mem_leaves hleaf) h₂
    obtain ⟨ht, hcur⟩ := Branch.replant_outcomes rfl hn hk hheld
    rw [hl] at hos
    obtain ⟨ds, hds, hp, hput⟩ := (Branch.visit_branches (bs.map Branch.item) [] _ _).1
      ⟨_, hos, rfl, rfl⟩
    refine ⟨ds, (hv ds).2 hds, ?_, ?_⟩
    · rw [ht, hf, hl, hput]
      rfl
    · rw [hcur, hl, hp]
      rfl
  · obtain ⟨os, hos, -⟩ := (Branch.visit_branches (bs.map Branch.item) [] _ _).2
      ⟨cs, (hv cs).1 h, rfl, rfl⟩
    obtain ⟨ds, hds, -⟩ := Branch.mapM_outcome.1 hos
    rw [List.length_nil, ← hl] at hds
    obtain ⟨child, hc⟩ := hd.succeeds ds hds
    exact ⟨_, Run.applySubquery_eq_ok.2 ⟨child, hc, rfl⟩⟩

/--
**Hops go through the items one by one**: a run succeeds when the hops from every single item do,
and then holds what becomes of each.
-/
theorem run_build : ∀ (p : MultiHop) {start : String → Plan} {items : List Item} {m : Machine},
    StartsAt (.ofFunctions objects edges) start items m →
      Run.Leads (Plan.run (.ofFunctions objects edges) (p.build start)) m
        (items.mapM (p.act objects edges)) p.key
  | attach type, start, items, m, hs => by
    obtain ⟨m₀, s, ht, rfl, hr⟩ := hs type
    exact (Run.attach_leads ht).congr hr
  | rewrite t hd p, start, items, m, hs =>
    (run_build p hs).andThen fun hm => Run.transform_leads hd hm
  | resolve p, start, items, m, hs =>
    (run_build p hs).andThen fun hm => Run.rewriteBranches_leads Run.computes_branch hm
  | extend type p, start, items, m, hs =>
    (run_build p hs).andThen fun hm => Run.attach_leads_of_holds hm
  | visit s p, start, items, m, hs =>
    (run_build p hs).andThen fun hm => applySubquery_leads (run_build s) hm

/-! ## Hops from a list -/

theorem toList_itemFlow_of_holds {s : Session} {key : String} {bs : List Branch}
    (h : s.Holds key bs) : s.tree.itemFlow.toList = bs.map Branch.item := by
  rw [h.tree, Tree.itemFlow, Flow.toList_join]
  simp [Tree.ofItems, Tree.anon, Tree.seqs, Tree.seqsOfEntries, Seq.toList]

theorem mapM_act {p : MultiHop} {single : Value → List Item} : ∀ {ids : List Value},
    (∀ id ∈ ids, ∃ br, p.act objects edges (Item.ofValue id) = some br ∧ single id = [br.item]) →
      ∃ bs, (ids.map Item.ofValue).mapM (p.act objects edges) = some bs ∧
        bs.map Branch.item = ids.flatMap single
  | [], _ => ⟨[], rfl, rfl⟩
  | id :: ids, h => by
    obtain ⟨br, hbr, hid⟩ := h id List.mem_cons_self
    obtain ⟨bs, hbs, hids⟩ := mapM_act fun i hi => h i (List.mem_cons_of_mem id hi)
    refine ⟨br :: bs, mapM_cons_eq_some.2 ⟨br, bs, hbr, hbs, rfl⟩, ?_⟩
    rw [List.map_cons, List.flatMap_cons, hid, hids]
    rfl

/--
**The result of hops on a list is the results on its members, one after another.**  If the hops
succeed on every identifier alone, they succeed on the list, repetitions and all, and its items are
those found for each identifier alone.
-/
theorem run_onLiteral (p : MultiHop) (ids : List Value) (m : Machine) (single : Value → Machine)
    (h : ∀ id ∈ ids, Plan.run (.ofFunctions objects edges) (p.onLiteral [id]) m =
      .ok () (single id)) :
    ∃ m', Plan.run (.ofFunctions objects edges) (p.onLiteral ids) m = .ok () m' ∧
      m'.session.tree.itemFlow.toList =
        ids.flatMap fun id => (single id).session.tree.itemFlow.toList := by
  have hone : ∀ id ∈ ids, ∃ br, p.act objects edges (Item.ofValue id) = some br ∧
      (single id).session.tree.itemFlow.toList = [br.item] := fun id hid => by
    obtain ⟨bs, hbs, hh⟩ := (run_build p (startsAt_literal [id])).holds _ (h id hid)
    obtain ⟨br, _, hbr, hnil, rfl⟩ := mapM_cons_eq_some.1 hbs
    cases hnil
    exact ⟨br, hbr, toList_itemFlow_of_holds hh⟩
  obtain ⟨bs, hbs, hitems⟩ := mapM_act hone
  obtain ⟨m', hm⟩ := (run_build p (startsAt_literal ids)).succeeds bs hbs
  obtain ⟨bs', hbs', hh⟩ := (run_build p (startsAt_literal ids)).holds m' hm
  rw [hbs] at hbs'
  cases hbs'
  exact ⟨m', hm, (toList_itemFlow_of_holds hh).trans hitems⟩

/-- Pets of the friends of the same identifier twice. -/
theorem run_onLiteral_repeated :
    let friends : String → Value → Except BackendError (List Item) := fun _ id =>
      .ok [Record.ofId id, Record.ofId (.int 7)]
    let b : Backend := .ofFunctions (fun ids => .ok (ids.map Record.ofId)) friends
    let p : MultiHop := .visit (.rewrite (.limit 1 0) rfl (.attach "pet"))
      (.rewrite .reverse rfl (.attach "friend"))
    let single : Value → Machine := fun id =>
      match Plan.run b (p.onLiteral [id]) ⟨.empty, {}⟩ with
      | .ok _ m => m
      | .error _ m => m
    (∀ id ∈ [Value.int 1, .int 1],
      Plan.run b (p.onLiteral [id]) ⟨.empty, {}⟩ = .ok () (single id)) ∧
      ∃ m, Plan.run b (p.onLiteral [.int 1, .int 1]) ⟨.empty, {}⟩ = .ok () m ∧
        m.session.tree.itemFlow.toList =
          [Value.int 1, .int 1].flatMap fun id => (single id).session.tree.itemFlow.toList := by
  intro friends b p single
  have h : ∀ id ∈ [Value.int 1, .int 1],
      Plan.run b (p.onLiteral [id]) ⟨.empty, {}⟩ = .ok () (single id) := by
    intro id hid
    have hid : id = .int 1 := by simpa using hid
    subst hid
    rfl
  exact ⟨h, run_onLiteral p [.int 1, .int 1] ⟨.empty, {}⟩ single h⟩

end MultiHop

end GraphQuery
