import GraphQuery.Proofs.Execution.Attaching
import GraphQuery.Proofs.Execution.InPlace
import GraphQuery.Proofs.Execution.Steps
/-!
# Branches

A session with one anonymous sequence is a list of branches: every item of the sequence, with the
points of the cursor that lie inside it.  Attaching edges, rewriting at the cursor and replanting go
through the branches one after another and do in each of them what its item and points alone decide
(`attach_branches`, `onPoints_branches`, `visit_branches`).
-/

namespace GraphQuery

/-- An item at the top level of a result, and the points of the cursor inside it. -/
structure Branch where
  item : Item
  points : List Path

namespace Branch

def inside (k : Nat) (p : Path) : Path := .entry 0 :: .item k :: p

def pointsFrom : Nat → List Branch → List Path
  | _, [] => []
  | k, br :: rest => br.points.map (inside k) ++ pointsFrom (k + 1) rest

end Branch

/-- A session with one anonymous sequence, and a cursor inside its items. -/
structure Session.Holds (key : String) (bs : List Branch) (s : Session) : Prop where
  tree : s.tree = .ofItems (bs.map Branch.item)
  cursor : s.cursor = some ⟨Branch.pointsFrom 0 bs, key⟩

/-! ## Lists of optional values -/

section

variable {α β γ : Type} {f : α → Option β}

theorem mapM_cons_eq_some {x : α} {xs : List α} {ys : List β} :
    (x :: xs).mapM f = some ys ↔
      ∃ y rest, f x = some y ∧ xs.mapM f = some rest ∧ ys = y :: rest := by
  rw [List.mapM_cons]
  cases f x with
  | none => simp
  | some y => cases xs.mapM f <;> simp [eq_comm]

theorem mapM_append_eq_some {xs xs' : List α} {ys : List β} :
    (xs ++ xs').mapM f = some ys ↔
      ∃ as as', xs.mapM f = some as ∧ xs'.mapM f = some as' ∧ ys = as ++ as' := by
  rw [List.mapM_append]
  cases xs.mapM f with
  | none => simp
  | some as => cases xs'.mapM f <;> simp [eq_comm]

theorem mapM_map_eq_some {g : α → α} {k : β → β} (h : ∀ x, f (g x) = (f x).map k) :
    ∀ {xs : List α} {ys : List β},
      (xs.map g).mapM f = some ys ↔ ∃ zs, xs.mapM f = some zs ∧ ys = zs.map k
  | [], ys => by simp [eq_comm]
  | x :: xs, ys => by
    rw [List.map_cons, mapM_cons_eq_some, h]
    constructor
    · rintro ⟨_, _, ha, hrest, rfl⟩
      obtain ⟨c, hc, rfl⟩ := Option.map_eq_some_iff.1 ha
      obtain ⟨cs, hcs, rfl⟩ := (mapM_map_eq_some h).1 hrest
      exact ⟨_, mapM_cons_eq_some.2 ⟨c, cs, hc, hcs, rfl⟩, rfl⟩
    · rintro ⟨_, hall, rfl⟩
      obtain ⟨c, cs, hc, hcs, rfl⟩ := mapM_cons_eq_some.1 hall
      exact ⟨_, _, by rw [hc]; rfl, (mapM_map_eq_some h).2 ⟨cs, hcs, rfl⟩, rfl⟩

theorem length_mapM : ∀ {xs : List α} {ys : List β}, xs.mapM f = some ys → ys.length = xs.length
  | [], _, h => by
    cases h
    rfl
  | x :: xs, _, h => by
    obtain ⟨y, ys, -, hys, rfl⟩ := mapM_cons_eq_some.1 h
    rw [List.length_cons, List.length_cons, length_mapM hys]

theorem mem_of_mapM : ∀ {xs : List α} {ys : List β}, xs.mapM f = some ys →
    ∀ y ∈ ys, ∃ x ∈ xs, f x = some y
  | [], _, h, y, hy => by
    cases h
    cases hy
  | x :: xs, _, h, y, hy => by
    obtain ⟨z, zs, hz, hzs, rfl⟩ := mapM_cons_eq_some.1 h
    rcases List.mem_cons.1 hy with rfl | hy
    · exact ⟨x, List.mem_cons_self, hz⟩
    · obtain ⟨w, hw, hf⟩ := mem_of_mapM hzs y hy
      exact ⟨w, List.mem_cons_of_mem x hw, hf⟩

theorem mapM_bind {g : β → Option γ} : ∀ {xs : List α} {zs : List γ},
    (xs.mapM fun x => (f x).bind g) = some zs ↔
      ∃ ys, xs.mapM f = some ys ∧ ys.mapM g = some zs
  | [], zs => by simp
  | x :: xs, zs => by
    rw [mapM_cons_eq_some]
    constructor
    · rintro ⟨z, rest, hfg, hrest, rfl⟩
      obtain ⟨y, hy, hz⟩ := Option.bind_eq_some_iff.1 hfg
      obtain ⟨ys, hys, hzs⟩ := mapM_bind.1 hrest
      exact ⟨y :: ys, mapM_cons_eq_some.2 ⟨y, ys, hy, hys, rfl⟩,
        mapM_cons_eq_some.2 ⟨z, rest, hz, hzs, rfl⟩⟩
    · rintro ⟨_, hall, hzall⟩
      obtain ⟨y, ys, hy, hys, rfl⟩ := mapM_cons_eq_some.1 hall
      obtain ⟨z, rest, hz, hzs, rfl⟩ := mapM_cons_eq_some.1 hzall
      exact ⟨z, rest, by rw [hy]; exact hz, mapM_bind.2 ⟨ys, hys, hzs⟩, rfl⟩

end

/-! ## Leaves of branches -/

def Leaf.inside (k : Nat) (l : Leaf) : Leaf := ⟨Branch.inside k l.path, l.item⟩

def leavesFrom : Nat → List Item → List Leaf
  | _, [] => []
  | k, x :: rest => x.leaves.map (Leaf.inside k) ++ leavesFrom (k + 1) rest

theorem leaves_anon_eq (s : Seq Item) : (Tree.anon s).leaves = leavesFrom 0 s.toList := by
  have go : ∀ (items : List Item) (k : Nat),
      (indexedLeaves .item Item.leaves k items).map (Leaf.under (.entry 0)) =
        leavesFrom k items := by
    intro items
    induction items with
    | nil => intro k; rfl
    | cons x rest ih =>
      intro k
      rw [indexedLeaves, List.map_append, List.map_map, ih (k + 1), leavesFrom]
      rfl
  rw [Tree.leaves_anon, go]

/-! ## Attaching -/

namespace Backend

variable (objects : List Value → Except BackendError (List Item))
  (edges : String → Value → Except BackendError (List Item))

theorem askEdges_ofFunctions (type : String) (id : Value) (w : World) :
    (ofFunctions objects edges).askEdges type id w = (match edges type id with
      | .ok items => .ok items
      | .error e => .error (.backend e), record w (.edges type id)) := by
  show ((edges type id).mapError QueryError.backend, _) = _
  cases edges type id <;> rfl

theorem askObjects_ofFunctions (ids : List Value) (w : World) :
    (ofFunctions objects edges).askObjects ids w = (match objects ids with
      | .ok items => .ok items
      | .error e => .error (.backend e), record w (.objects ids)) := by
  show ((objects ids).mapError QueryError.backend, _) = _
  cases objects ids <;> rfl

end Backend

namespace Branch

variable {objects : List Value → Except BackendError (List Item)}
  {edges : String → Value → Except BackendError (List Item)} {type : String}

def answered (edges : String → Value → Except BackendError (List Item)) (type : String)
    (leaf : Leaf) : Option (Leaf × Option (List Item)) :=
  match leaf.item.id? with
  | none => some (leaf, none)
  | some id => (edges type id).toOption.map fun found => (leaf, some found)

theorem answered_inside (k : Nat) (leaf : Leaf) :
    answered edges type (leaf.inside k) =
      (answered edges type leaf).map fun a => (a.1.inside k, a.2) := by
  unfold answered
  show (match leaf.item.id? with | none => _ | some id => _) = _
  cases leaf.item.id? with
  | none => rfl
  | some id =>
    dsimp only
    cases edges type id <;> rfl

theorem lookup_ofFunctions : ∀ {leaves : List Leaf} {w : World} {found : List Edges.Found},
    (∃ w', Edges.lookup (.ofFunctions objects edges) type leaves w = ⟨found, none, w'⟩) ↔
      ∃ as, leaves.mapM (answered edges type) = some as ∧ found = Edges.foundOf as
  | [], w, found => by
    constructor
    · rintro ⟨w', ⟨⟩⟩
      exact ⟨[], rfl, rfl⟩
    · rintro ⟨as, ⟨⟩, rfl⟩
      exact ⟨w, rfl⟩
  | leaf :: rest, w, found => by
    have ih := @lookup_ofFunctions rest
    simp only [mapM_cons_eq_some, Edges.lookup, answered]
    cases leaf.item.id? with
    | none =>
      simp only [ih]
      constructor
      · rintro ⟨as, ha, rfl⟩
        exact ⟨_, ⟨_, as, rfl, ha, rfl⟩, rfl⟩
      · rintro ⟨_, ⟨_, as, ⟨⟩, ha, rfl⟩, rfl⟩
        exact ⟨as, ha, rfl⟩
    | some id =>
      dsimp only
      rw [Backend.askEdges_ofFunctions]
      cases edges type id with
      | error e => simp [Except.toOption]
      | ok es =>
        simp only [Except.toOption, Option.map_some]
        constructor
        · rintro ⟨w', h⟩
          cases hl : Edges.lookup (.ofFunctions objects edges) type rest
            (Backend.record w (.edges type id)) with
          | mk more failure u =>
            simp only [hl, Edges.Lookup.mk.injEq] at h
            obtain ⟨rfl, rfl, rfl⟩ := h
            obtain ⟨as, ha, rfl⟩ := ih.1 ⟨_, hl⟩
            exact ⟨_, ⟨_, as, rfl, ha, rfl⟩, rfl⟩
        · rintro ⟨_, ⟨_, as, ⟨⟩, ha, rfl⟩, rfl⟩
          obtain ⟨w', hl⟩ := ih.2 ⟨as, ha, rfl⟩
          exact ⟨w', by rw [hl]; rfl⟩

def attachAll (type : String) : Edges.Answered → Item → List Path × Item
  | [], item => ([], item)
  | (_, none) :: rest, item => attachAll type rest item
  | (leaf, some found) :: rest, item =>
    let after := attachAll type rest (item.changeWithin (Edges.attachTo type found) leaf.path)
    (if (item.within? leaf.path).isSome then leaf.path :: after.1 else after.1, after.2)

def attach (edges : String → Value → Except BackendError (List Item)) (type : String)
    (item : Item) : Option Branch :=
  (item.leaves.mapM (answered edges type)).map fun as =>
    ⟨(attachAll type as item).2, (attachAll type as item).1⟩

theorem commit_append (found more : List Edges.Found) (t : Tree) :
    Edges.commit type (found ++ more) t =
      ((Edges.commit type found t).1 ++ (Edges.commit type more (Edges.commit type found t).2).1,
        (Edges.commit type more (Edges.commit type found t).2).2) := by
  induction found generalizing t with
  | nil => rfl
  | cons f rest ih =>
    rw [List.cons_append, Edges.commit_cons, Edges.commit_cons, ih]
    dsimp only
    split <;> rfl

theorem commit_inside {done todo : List Item} : ∀ (as : Edges.Answered) (x : Item),
    Edges.commit type (Edges.foundOf (as.map fun a => (a.1.inside done.length, a.2)))
        (.ofItems (done ++ x :: todo)) =
      ((attachAll type as x).1.map (inside done.length),
        .ofItems (done ++ (attachAll type as x).2 :: todo))
  | [], _ => rfl
  | (leaf, none) :: rest, x => commit_inside rest x
  | (leaf, some found) :: rest, x => by
    have ih := @commit_inside done todo rest
      (x.changeWithin (Edges.attachTo type found) leaf.path)
    rw [List.map_cons, Edges.foundOf_cons_some, Edges.commit_cons]
    simp only [Leaf.inside, inside, Tree.changeItem_middle, Tree.itemAt?_middle] at ih ⊢
    rw [ih, attachAll]
    cases x.within? leaf.path <;> rfl

theorem foundOf_append (as cs : Edges.Answered) :
    Edges.foundOf (as ++ cs) = Edges.foundOf as ++ Edges.foundOf cs := List.filterMap_append

/-- **Edges are attached branch by branch.** -/
theorem attach_branches : ∀ (items done : List Item) (points : List Path) (t : Tree),
    (∃ as, (leavesFrom done.length items).mapM (answered edges type) = some as ∧
      Edges.commit type (Edges.foundOf as) (.ofItems (done ++ items)) = (points, t)) ↔
    ∃ bs, items.mapM (attach edges type) = some bs ∧ points = pointsFrom done.length bs ∧
      t = .ofItems (done ++ bs.map Branch.item)
  | [], done, points, t => by
    constructor
    · rintro ⟨_, ⟨⟩, ⟨⟩⟩
      exact ⟨[], rfl, rfl, rfl⟩
    · rintro ⟨_, ⟨⟩, rfl, rfl⟩
      exact ⟨[], rfl, rfl⟩
  | x :: rest, done, points, t => by
    rw [leavesFrom]
    constructor
    · rintro ⟨_, has, hc⟩
      obtain ⟨_, as, hx, hrest, rfl⟩ := mapM_append_eq_some.1 has
      obtain ⟨cs, hcs, rfl⟩ := (mapM_map_eq_some (answered_inside _)).1 hx
      rw [foundOf_append, commit_append, commit_inside] at hc
      obtain ⟨rfl, rfl⟩ := Prod.mk.inj hc
      have ih := attach_branches rest (done ++ [(attachAll type cs x).2])
      simp only [List.length_append, List.length_singleton, List.append_assoc] at ih
      obtain ⟨bs, hbs, hp, ht⟩ := (ih _ _).1 ⟨as, hrest, rfl⟩
      refine ⟨⟨(attachAll type cs x).2, (attachAll type cs x).1⟩ :: bs,
        mapM_cons_eq_some.2 ⟨_, bs, ?_, hbs, rfl⟩, ?_, ?_⟩
      · rw [attach, hcs]
        rfl
      · exact congrArg _ hp
      · exact ht
    · rintro ⟨_, hall, rfl, rfl⟩
      obtain ⟨br, bs, hx, hbs, rfl⟩ := mapM_cons_eq_some.1 hall
      obtain ⟨cs, hcs, rfl⟩ := Option.map_eq_some_iff.1 hx
      have ih := attach_branches rest (done ++ [(attachAll type cs x).2])
      simp only [List.length_append, List.length_singleton, List.append_assoc] at ih
      obtain ⟨as, has, hc⟩ := (ih _ _).2 ⟨bs, hbs, rfl, rfl⟩
      refine ⟨_, mapM_append_eq_some.2
        ⟨_, as, (mapM_map_eq_some (answered_inside _)).2 ⟨cs, hcs, rfl⟩, has, rfl⟩, ?_⟩
      rw [foundOf_append, commit_append, commit_inside]
      dsimp only
      rw [List.singleton_append] at hc
      rw [hc]
      rfl

end Branch

/-! ## Rewriting -/

def Rewrite.Computes (f : Rewrite) (g : List Item → Option (List Item)) : Prop :=
  ∀ items w out, (∃ w', f items w = (.ok out, w')) ↔ g items = some out

namespace Branch

variable {f : Rewrite} {g : List Item → Option (List Item)} {key : String}

def rewriteField (g : List Item → Option (List Item)) (key : String) (item : Item) : Option Item :=
  match item.writable? key with
  | none => some item
  | some v => (g (Rewrite.itemsOf v)).map fun items =>
      (item.assign? key (.list (items.map .record))).getD item

def rewriteAll (g : List Item → Option (List Item)) (key : String) :
    List Path → Item → Option Item
  | [], item => some item
  | p :: rest, item =>
    match item.within? p with
    | none => rewriteAll g key rest item
    | some inner => (rewriteField g key inner).bind fun inner =>
        rewriteAll g key rest (item.changeWithin (fun _ => inner) p)

def rewrite (g : List Item → Option (List Item)) (key : String) (br : Branch) : Option Branch :=
  (rewriteAll g key br.points br.item).map fun item => ⟨item, br.points⟩

theorem onField_eq_ok (h : f.Computes g) (key : String) (item : Item) (w : World) (item' : Item) :
    (∃ w', f.onField key item ⟨w, none⟩ = (item', ⟨w', none⟩)) ↔
      rewriteField g key item = some item' := by
  unfold Rewrite.onField rewriteField
  cases item.writable? key with
  | none => simp
  | some v =>
    have hv := h (Rewrite.itemsOf v) w
    dsimp only
    generalize f (Rewrite.itemsOf v) w = r at hv ⊢
    obtain ⟨_ | items, w'⟩ := r
    · have hg : g (Rewrite.itemsOf v) = none := by
        cases hg : g (Rewrite.itemsOf v) with
        | none => rfl
        | some out =>
          obtain ⟨w'', hw⟩ := (hv out).2 hg
          cases hw
      simp [hg]
    · have hg := (hv items).1 ⟨w', rfl⟩
      simp [hg]

theorem onPoints_failed (points : List Path) (t : Tree) (w : World) (e : QueryError) :
    f.onPoints key points t ⟨w, some e⟩ = (t, ⟨w, some e⟩) := by
  cases points <;> rfl

theorem onPoints_inside (h : f.Computes g) {done todo : List Item} {more : List Path}
    {outcome : Item → Tree → Prop}
    (hmore : ∀ x w t', (∃ w', f.onPoints key more (.ofItems (done ++ x :: todo)) ⟨w, none⟩ =
      (t', ⟨w', none⟩)) ↔ outcome x t') : ∀ (points : List Path) (x : Item) (w : World) (t' : Tree),
      (∃ w', f.onPoints key (points.map (inside done.length) ++ more)
        (.ofItems (done ++ x :: todo)) ⟨w, none⟩ = (t', ⟨w', none⟩)) ↔
      ∃ x', rewriteAll g key points x = some x' ∧ outcome x' t'
  | [], x, w, t' => by
    rw [List.map_nil, List.nil_append, hmore]
    simp [rewriteAll]
  | p :: points, x, w, t' => by
    have ih := onPoints_inside h hmore points
    rw [List.map_cons, List.cons_append, Rewrite.onPoints, inside, Tree.itemAt?_middle, rewriteAll]
    dsimp only
    cases hp : x.within? p with
    | none =>
      -- a point that leads nowhere buffers the sequence, which is buffered already
      dsimp only
      rw [Tree.enter, Tree.changeItem_middle, Item.changeWithin_id]
      exact ih x w t'
    | some inner =>
      dsimp only
      have hf := onField_eq_ok h key inner w
      generalize f.onField key inner ⟨w, none⟩ = r at hf ⊢
      obtain ⟨inner', w₁, _ | e⟩ := r
      · have hg := (hf inner').1 ⟨w₁, rfl⟩
        dsimp only
        rw [Tree.changeItem_middle, hg, Option.bind_some]
        exact ih _ w₁ t'
      · have hg : rewriteField g key inner = none := by
          cases hg : rewriteField g key inner with
          | none => rfl
          | some out =>
            obtain ⟨w', hw⟩ := (hf out).2 hg
            cases hw
        dsimp only
        rw [onPoints_failed, hg]
        simp

/-- **Rewriting at the points of branches rewrites them branch by branch.** -/
theorem onPoints_branches (h : f.Computes g) : ∀ (bs : List Branch) (done : List Item) (w : World)
    (t' : Tree),
    (∃ w', f.onPoints key (pointsFrom done.length bs) (.ofItems (done ++ bs.map item)) ⟨w, none⟩ =
      (t', ⟨w', none⟩)) ↔
    ∃ bs', bs.mapM (rewrite g key) = some bs' ∧ t' = .ofItems (done ++ bs'.map item)
  | [], done, w, t' => by
    simp [pointsFrom, Rewrite.onPoints, eq_comm]
  | br :: rest, done, w, t' => by
    have ih : ∀ x w t', (∃ w', f.onPoints key (pointsFrom (done.length + 1) rest)
        (.ofItems (done ++ x :: rest.map item)) ⟨w, none⟩ = (t', ⟨w', none⟩)) ↔
        ∃ bs', rest.mapM (rewrite g key) = some bs' ∧
          t' = .ofItems (done ++ x :: bs'.map item) := fun x w t' => by
      have ih := onPoints_branches h rest (done ++ [x]) w t'
      simpa only [List.length_append, List.length_singleton, List.append_assoc,
        List.singleton_append] using ih
    rw [pointsFrom, List.map_cons, onPoints_inside h ih]
    constructor
    · rintro ⟨x', hx, bs', hbs, rfl⟩
      refine ⟨⟨x', br.points⟩ :: bs', mapM_cons_eq_some.2 ⟨_, bs', ?_, hbs, rfl⟩, rfl⟩
      rw [rewrite, hx]
      rfl
    · rintro ⟨_, hall, rfl⟩
      obtain ⟨br', bs', hbr, hbs, rfl⟩ := mapM_cons_eq_some.1 hall
      obtain ⟨x', hx, rfl⟩ := Option.map_eq_some_iff.1 hbr
      exact ⟨x', hx, bs', hbs, rfl⟩

theorem pointsFrom_rewrite : ∀ {bs bs' : List Branch} (k : Nat),
    bs.mapM (rewrite g key) = some bs' → pointsFrom k bs' = pointsFrom k bs
  | [], _, _, h => by
    cases h
    rfl
  | br :: rest, _, k, h => by
    obtain ⟨br', bs', hx, hbs, rfl⟩ := mapM_cons_eq_some.1 h
    obtain ⟨x', -, rfl⟩ := Option.map_eq_some_iff.1 hx
    rw [pointsFrom, pointsFrom, pointsFrom_rewrite (k + 1) hbs]

end Branch

/-! ## Putting results in -/

namespace Branch

def putAll (ps : List (Path × Item)) (item : Item) : Item :=
  ps.foldl (fun item p => item.changeWithin (fun _ => p.2) p.1) item

theorem putAll_inside {done todo : List Item} : ∀ (ps : List (Path × Item)) (x : Item),
    (Tree.ofItems (done ++ x :: todo)).putAll (ps.map fun p => (inside done.length p.1, p.2)) =
      .ofItems (done ++ putAll ps x :: todo)
  | [], _ => rfl
  | p :: ps, x => by
    rw [List.map_cons, Tree.putAll_cons, inside, Tree.changeItem_middle]
    exact putAll_inside ps _

abbrev Outcome := Leaf × Branch

def outcome (act : Item → Option Branch) (leaf : Leaf) : Option Outcome :=
  (act leaf.item).map fun br => (leaf, br)

def resultsOf (os : List Outcome) : List (Path × Item) := os.map fun o => (o.1.path, o.2.item)

def pointsOfAll (os : List Outcome) : List Path :=
  os.flatMap fun o => o.2.points.map (o.1.path ++ ·)

def visit (act : Item → Option Branch) (item : Item) : Option Branch :=
  (item.leaves.mapM (outcome act)).map fun os => ⟨putAll (resultsOf os) item, pointsOfAll os⟩

variable {act : Item → Option Branch}

theorem outcome_inside (k : Nat) (leaf : Leaf) :
    outcome act (leaf.inside k) = (outcome act leaf).map fun o => (o.1.inside k, o.2) := by
  show (act leaf.item).map _ = ((act leaf.item).map _).map _
  rw [Option.map_map]
  rfl

theorem pointsOfAll_inside (k : Nat) (os : List Outcome) :
    pointsOfAll (os.map fun o => (o.1.inside k, o.2)) = (pointsOfAll os).map (inside k) := by
  simp only [pointsOfAll, List.flatMap_map, List.map_flatMap, List.map_map]
  rfl

/-- **Results are put back branch by branch.** -/
theorem visit_branches : ∀ (items done : List Item) (points : List Path) (t : Tree),
    (∃ os, (leavesFrom done.length items).mapM (outcome act) = some os ∧
      points = pointsOfAll os ∧ t = (Tree.ofItems (done ++ items)).putAll (resultsOf os)) ↔
    ∃ bs, items.mapM (visit act) = some bs ∧ points = pointsFrom done.length bs ∧
      t = .ofItems (done ++ bs.map item)
  | [], done, points, t => by
    constructor
    · rintro ⟨_, ⟨⟩, rfl, rfl⟩
      exact ⟨[], rfl, rfl, rfl⟩
    · rintro ⟨_, ⟨⟩, rfl, rfl⟩
      exact ⟨[], rfl, rfl, rfl⟩
  | x :: rest, done, points, t => by
    have hput : ∀ cs os : List Outcome, (Tree.ofItems (done ++ x :: rest)).putAll
        (resultsOf (cs.map (fun o => (o.1.inside done.length, o.2)) ++ os)) =
        (Tree.ofItems ((done ++ [putAll (resultsOf cs) x]) ++ rest)).putAll (resultsOf os) := by
      intro cs os
      have hp := @putAll_inside done rest (resultsOf cs) x
      rw [List.append_assoc, List.singleton_append, ← hp]
      simp only [resultsOf, Tree.putAll, List.map_append, List.map_map, List.foldl_append]
      rfl
    rw [leavesFrom]
    constructor
    · rintro ⟨_, has, rfl, rfl⟩
      obtain ⟨_, os, hx, hrest, rfl⟩ := mapM_append_eq_some.1 has
      obtain ⟨cs, hcs, rfl⟩ := (mapM_map_eq_some (outcome_inside _)).1 hx
      have ih := visit_branches rest (done ++ [putAll (resultsOf cs) x])
      simp only [List.length_append, List.length_singleton] at ih
      obtain ⟨bs, hbs, hp, ht⟩ := (ih _ _).1 ⟨os, hrest, rfl, rfl⟩
      refine ⟨⟨putAll (resultsOf cs) x, pointsOfAll cs⟩ :: bs,
        mapM_cons_eq_some.2 ⟨_, bs, ?_, hbs, rfl⟩, ?_, ?_⟩
      · rw [visit, hcs]
        rfl
      · rw [pointsFrom, ← hp, ← pointsOfAll_inside]
        exact List.flatMap_append
      · rw [hput, ht, List.append_assoc]
        rfl
    · rintro ⟨_, hall, rfl, rfl⟩
      obtain ⟨br, bs, hx, hbs, rfl⟩ := mapM_cons_eq_some.1 hall
      obtain ⟨cs, hcs, rfl⟩ := Option.map_eq_some_iff.1 hx
      have ih := visit_branches rest (done ++ [putAll (resultsOf cs) x])
      simp only [List.length_append, List.length_singleton] at ih
      obtain ⟨os, hos, hp, ht⟩ := (ih _ _).2 ⟨bs, hbs, rfl, rfl⟩
      refine ⟨_, mapM_append_eq_some.2
        ⟨_, os, (mapM_map_eq_some (outcome_inside _)).2 ⟨cs, hcs, rfl⟩, hos, rfl⟩, ?_, ?_⟩
      · rw [pointsFrom, hp, ← pointsOfAll_inside]
        exact List.flatMap_append.symm
      · rw [hput, ← ht, List.append_assoc]
        rfl

end Branch

end GraphQuery
