import GraphQuery.Proofs.Execution.Answers
/-!
# What answers leave out

Pruning removes what holds no data and nothing else: a list or a record loses the parts without a
single scalar inside them (`Value.prune_list`, `Value.prune_record`), and the scalars that it holds
stay in their order under the same field names (`Value.data_prune`).  What is left is *tidy*: nothing
inside it is void, so that pruning it once more changes nothing (`Value.prune_of_tidy`).  The
hierarchical answer prunes while it is built, entry by entry, and comes out tidy as well
(`Tree.tidy_toValue`).
-/

namespace GraphQuery

/-! ## Data -/

theorem flatMap_filter_of_nil {α β : Type} {p : α → Bool} {g : α → List β} :
    ∀ {xs : List α}, (∀ a ∈ xs, p a = false → g a = []) → (xs.filter p).flatMap g = xs.flatMap g
  | [], _ => rfl
  | a :: rest, h => by
    rw [List.forall_mem_cons] at h
    rw [List.filter_cons, List.flatMap_cons, ← flatMap_filter_of_nil h.2]
    cases hp : p a with
    | true => exact List.flatMap_cons
    | false => rw [h.1 hp]; rfl

namespace Value

/-- Booleans, numbers and strings: the scalars without null. -/
def isDatum (v : Value) : Bool := v.isScalar && v.kind ≠ .null

def parts : Value → List Value
  | .list vs => vs
  | .record item => item.fields.map Prod.snd
  | _ => []

end Value

mutual

/-- The data inside a value, in order, each with the names of the fields that lead to it. -/
def Value.data : Value → List (List String × Value)
  | .null => []
  | .list vs => dataOfElements vs
  | .record ⟨fields⟩ => dataOfFields fields
  | v => [([], v)]
termination_by structural v => v

def dataOfElements : List Value → List (List String × Value)
  | [] => []
  | v :: rest => v.data ++ dataOfElements rest
termination_by structural vs => vs

def dataOfFields : List (String × Value) → List (List String × Value)
  | [] => []
  | (name, v) :: rest => (v.data.map fun d => (name :: d.1, d.2)) ++ dataOfFields rest
termination_by structural fields => fields

end

theorem dataOfElements_eq (vs : List Value) : dataOfElements vs = vs.flatMap Value.data := by
  induction vs with
  | nil => rfl
  | cons v rest ih => rw [dataOfElements, ih, List.flatMap_cons]

def dataUnder (f : String × Value) : List (List String × Value) :=
  f.2.data.map fun d => (f.1 :: d.1, d.2)

theorem dataOfFields_eq (fields : List (String × Value)) :
    dataOfFields fields = fields.flatMap dataUnder := by
  induction fields with
  | nil => rfl
  | cons f rest ih => rw [dataOfFields, ih, List.flatMap_cons, dataUnder]

namespace Value

variable {v w : Value}

theorem data_list (vs : List Value) : (list vs).data = vs.flatMap data := dataOfElements_eq vs

theorem data_record (item : Item) : (record item).data = item.fields.flatMap dataUnder :=
  dataOfFields_eq item.fields

/-- **The data of a value are the data inside it.** -/
theorem exists_mem_data_iff :
    (∃ path, (path, w) ∈ v.data) ↔ w.isDatum = true ∧ w.Within v := by
  induction v using Value.induction with
  | null =>
    constructor
    · rintro ⟨_, ⟨⟩⟩
    · rintro ⟨hd, h⟩
      cases h
      cases hd
  | bool | int | float | string =>
    constructor
    · rintro ⟨path, h⟩
      cases List.mem_singleton.1 h
      exact ⟨rfl, .refl⟩
    · rintro ⟨-, h⟩
      cases h
      exact ⟨[], List.mem_cons_self⟩
  | list vs ih =>
    rw [within_list, data_list]
    constructor
    · rintro ⟨path, h⟩
      obtain ⟨u, hu, h⟩ := List.mem_flatMap.1 h
      obtain ⟨hd, hw⟩ := (ih u hu).1 ⟨path, h⟩
      exact ⟨hd, .inr ⟨u, hu, hw⟩⟩
    · rintro ⟨hd, rfl | ⟨u, hu, hw⟩⟩
      · cases hd
      · obtain ⟨path, h⟩ := (ih u hu).2 ⟨hd, hw⟩
        exact ⟨path, List.mem_flatMap.2 ⟨u, hu, h⟩⟩
  | record fields ih =>
    rw [within_record, data_record]
    constructor
    · rintro ⟨path, h⟩
      obtain ⟨f, hf, h⟩ := List.mem_flatMap.1 h
      obtain ⟨d, hd, he⟩ := List.mem_map.1 h
      cases he
      obtain ⟨hd, hw⟩ := (ih f hf).1 ⟨d.1, hd⟩
      exact ⟨hd, .inr ⟨f, hf, hw⟩⟩
    · rintro ⟨hd, rfl | ⟨f, hf, hw⟩⟩
      · cases hd
      · obtain ⟨path, h⟩ := (ih f hf).2 ⟨hd, hw⟩
        exact ⟨f.1 :: path, List.mem_flatMap.2 ⟨f, hf, List.mem_map.2 ⟨_, h, rfl⟩⟩⟩

theorem data_ne_nil_iff : v.data ≠ [] ↔ ∃ w : Value, w.isDatum = true ∧ w.Within v := by
  constructor
  · intro h
    obtain ⟨⟨path, w⟩, hw⟩ := List.exists_mem_of_ne_nil _ h
    exact ⟨w, exists_mem_data_iff.1 ⟨path, hw⟩⟩
  · rintro ⟨w, hw⟩
    obtain ⟨path, hm⟩ := exists_mem_data_iff.2 hw
    exact List.ne_nil_of_mem hm

def hasData (v : Value) : Bool := !v.data.isEmpty

theorem hasData_iff : v.hasData = true ↔ ∃ w : Value, w.isDatum = true ∧ w.Within v := by
  rw [← data_ne_nil_iff, hasData, Bool.not_eq_true', List.isEmpty_eq_false_iff]

theorem data_of_not_hasData (h : v.hasData = false) : v.data = [] := by
  simpa [hasData] using h

theorem hasData_list {vs : List Value} :
    (list vs).hasData = true ↔ ∃ v ∈ vs, v.hasData = true := by
  simp only [hasData, data_list, Bool.not_eq_true', List.isEmpty_eq_false_iff,
    List.flatMap_eq_nil_iff, ne_eq, not_forall, exists_prop]

theorem hasData_record {item : Item} :
    (record item).hasData = true ↔ ∃ f ∈ item.fields, f.2.hasData = true := by
  simp only [hasData, data_record, dataUnder, Bool.not_eq_true', List.isEmpty_eq_false_iff,
    List.flatMap_eq_nil_iff, List.map_eq_nil_iff, ne_eq, not_forall, exists_prop]

/-! ## What is pruned -/

theorem isVoid_list {vs : List Value} : (list vs).isVoid = false ↔ ∃ v, v ∈ vs :=
  List.isEmpty_eq_false_iff_exists_mem

/-- **A value is pruned away when there are no data in it.** -/
theorem isVoid_prune (v : Value) : v.prune.isVoid = false ↔ v.hasData = true := by
  induction v using Value.induction with
  | null | bool | int | float | string => simp [prune, isVoid, hasData, data]
  | list vs ih =>
    rw [prune, isVoid_list, hasData_list]
    constructor
    · rintro ⟨w, hw⟩
      obtain ⟨v, hv, h, -⟩ := mem_pruneValues.1 hw
      exact ⟨v, hv, (ih v hv).1 h⟩
    · rintro ⟨v, hv, h⟩
      exact ⟨v.prune, mem_pruneValues.2 ⟨v, hv, (ih v hv).2 h, rfl⟩⟩
  | record fields ih =>
    rw [prune, isVoid, Record.isEmpty_ofFields, hasData_record]
    constructor
    · rintro ⟨g, hg⟩
      obtain ⟨f, hf, h, -⟩ := mem_pruneFields.1 hg
      exact ⟨f, hf, (ih f hf).1 h⟩
    · rintro ⟨f, hf, h⟩
      exact ⟨_, mem_pruneFields.2 ⟨f, hf, (ih f hf).2 h, rfl⟩⟩

theorem not_isVoid_prune (v : Value) : (!v.prune.isVoid) = v.hasData := by
  rw [Bool.eq_iff_iff, Bool.not_eq_true', isVoid_prune]

/-- **A list loses the elements without data**, and the others are pruned. -/
theorem prune_list (vs : List Value) :
    (list vs).prune = .list ((vs.filter fun v => v.hasData).map prune) := by
  rw [prune, pruneValues_eq, List.filter_map]
  simp only [Function.comp_def, not_isVoid_prune]

theorem pruneFields_eq_filter (fields : List (String × Value)) : pruneFields fields =
    (fields.filter fun f => f.2.hasData).map fun f => (f.1, f.2.prune) := by
  rw [pruneFields_eq, List.filter_map]
  simp only [Function.comp_def, not_isVoid_prune]

/-- **A record loses the fields without data**, and of fields with one name the first is kept. -/
theorem prune_record (item : Item) : (record item).prune = .record (Record.ofFields
    ((item.fields.filter fun f => f.2.hasData).map fun f => (f.1, f.2.prune))) := by
  rw [prune, pruneFields_eq_filter]

/-- **Pruning keeps the data**, in their order and under the same names. -/
theorem data_prune (h : v.everywhere Item.hasDistinctNames (fun _ => true) = true) :
    v.prune.data = v.data := by
  induction v using Value.induction with
  | null | bool | int | float | string => rfl
  | list vs ih =>
    have hvs := (everywhere_list.1 h).2
    rw [prune_list, data_list, data_list, List.flatMap_map]
    calc (vs.filter fun v => v.hasData).flatMap (fun v => v.prune.data)
        = (vs.filter fun v => v.hasData).flatMap data := List.flatMap_congr fun v hv =>
          ih v (List.mem_filter.1 hv).1 (hvs v (List.mem_filter.1 hv).1)
      _ = vs.flatMap data := flatMap_filter_of_nil fun v _ => data_of_not_hasData
  | record fields ih =>
    obtain ⟨hn, hfs⟩ := everywhere_record.1 h
    have hsub := nodup_pruneFields (of_decide_eq_true hn)
    rw [pruneFields_eq_filter] at hsub
    rw [prune_record, Record.ofFields_of_nodup hsub, data_record, data_record, List.flatMap_map]
    calc (fields.filter fun f => f.2.hasData).flatMap (fun f => dataUnder (f.1, f.2.prune))
        = (fields.filter fun f => f.2.hasData).flatMap dataUnder :=
          List.flatMap_congr fun f hf => by
            have hf := (List.mem_filter.1 hf).1
            rw [dataUnder, dataUnder, ih f hf (hfs f hf)]
      _ = fields.flatMap dataUnder := flatMap_filter_of_nil fun f _ he => by
          rw [dataUnder, data_of_not_hasData he]
          rfl

end Value

/-! ## Tidy values -/

def Item.isTidy (item : Item) : Bool :=
  decide item.names.Nodup && item.fields.all fun f => !f.2.isVoid

namespace Value

variable {v w : Value}

def Tidy (v : Value) : Prop :=
  v.everywhere Item.isTidy (fun vs => vs.all fun v => !v.isVoid) = true

theorem tidy_list {vs : List Value} :
    (list vs).Tidy ↔ ∀ v ∈ vs, v.isVoid = false ∧ v.Tidy := by
  rw [Tidy, everywhere_list, List.all_eq_true]
  simp only [Bool.not_eq_true', forall_and]
  rfl

theorem tidy_record {item : Item} : (record item).Tidy ↔
    item.names.Nodup ∧ ∀ f ∈ item.fields, f.2.isVoid = false ∧ f.2.Tidy := by
  rw [Tidy, everywhere_record, Item.isTidy, Bool.and_eq_true, decide_eq_true_eq,
    List.all_eq_true, and_assoc]
  simp only [Bool.not_eq_true', forall_and]
  rfl

theorem tidy_pruneValues {vs : List Value} (h : ∀ v ∈ vs, v.prune.Tidy) :
    (list (pruneValues vs)).Tidy := by
  rw [tidy_list]
  intro w hw
  obtain ⟨v, hv, hvoid, rfl⟩ := mem_pruneValues.1 hw
  exact ⟨hvoid, h v hv⟩

/-- **What is pruned is tidy.** -/
theorem tidy_prune (v : Value) : v.prune.Tidy := by
  induction v using Value.induction with
  | null | bool | int | float | string => rfl
  | list vs ih => exact tidy_pruneValues ih
  | record fields ih =>
    rw [prune, tidy_record]
    refine ⟨Record.nodup_ofFields _, fun f hf => ?_⟩
    obtain ⟨g, hg, hvoid, rfl⟩ := mem_pruneFields.1 (Record.mem_ofFields hf)
    exact ⟨hvoid, ih g hg⟩

theorem pruneValues_of_tidy {vs : List Value}
    (h : ∀ v ∈ vs, v.isVoid = false ∧ v.prune = v) : pruneValues vs = vs := by
  rw [pruneValues_eq, List.map_congr_left (g := id) fun v hv => (h v hv).2, List.map_id,
    List.filter_eq_self]
  intro v hv
  rw [(h v hv).1]
  rfl

/-- **Pruning leaves a tidy value as it is.** -/
theorem prune_of_tidy (h : v.Tidy) : v.prune = v := by
  induction v using Value.induction with
  | null | bool | int | float | string => rfl
  | list vs ih =>
    rw [tidy_list] at h
    rw [prune, pruneValues_of_tidy fun v hv => ⟨(h v hv).1, ih v hv (h v hv).2⟩]
  | record fields ih =>
    obtain ⟨hn, h⟩ := tidy_record.1 h
    have hfields : pruneFields fields = fields := by
      rw [pruneFields_eq, List.map_congr_left (g := id) fun f hf => by
        rw [ih f hf (h f hf).2]; rfl, List.map_id, List.filter_eq_self]
      intro f hf
      rw [(h f hf).1]
      rfl
    rw [prune, hfields, Record.ofFields_of_nodup hn]

theorem isVoid_of_within (h : w.Within v) (hv : v.Tidy) (hvoid : v.isVoid = false) :
    w.isVoid = false := by
  induction h with
  | refl => exact hvoid
  | element hu _ ih =>
    obtain ⟨hn, ht⟩ := tidy_list.1 hv _ hu
    exact ih ht hn
  | field hf _ ih =>
    obtain ⟨hn, ht⟩ := (tidy_record.1 hv).2 _ hf
    exact ih ht hn

theorem isVoid_of_tidy (hv : v.Tidy) {part : Value} (hp : part ∈ v.parts) (hw : w.Within part) :
    w.isVoid = false := by
  cases v with
  | list vs =>
    obtain ⟨hn, ht⟩ := tidy_list.1 hv part hp
    exact isVoid_of_within hw ht hn
  | record item =>
    obtain ⟨f, hf, rfl⟩ := List.mem_map.1 hp
    obtain ⟨hn, ht⟩ := (tidy_record.1 hv).2 f hf
    exact isVoid_of_within hw ht hn
  | _ => cases hp

end Value

/-! ## Hierarchical answers -/

namespace Tree

variable {t : Tree} {anonymous : String}

def HoldsData (t : Tree) : Prop :=
  ∃ s ∈ t.seqs, ∃ item ∈ s.toList, ∃ w : Value, w.isDatum = true ∧ w.Within (.record item)

theorem holdsData_seq {s : Seq Item} : (seq s).HoldsData ↔
    ∃ item ∈ s.toList, ∃ w : Value, w.isDatum = true ∧ w.Within (.record item) := by
  simp [HoldsData, seqs]

theorem holdsData_map {entries : List (Key × Tree)} :
    (map entries).HoldsData ↔ ∃ e ∈ entries, e.2.HoldsData := by
  constructor
  · rintro ⟨s, hs, hitem⟩
    obtain ⟨e, he, hs⟩ := mem_seqsOfEntries.1 hs
    exact ⟨e, he, s, hs, hitem⟩
  · rintro ⟨e, he, s, hs, hitem⟩
    exact ⟨s, mem_seqsOfEntries.2 ⟨e, he, hs⟩, hitem⟩

theorem mem_answered {entries : List (Key × Tree)} {f : String × Value} :
    f ∈ answered anonymous entries ↔ ∃ e ∈ entries, e.1.render anonymous = f.1 ∧
      e.2.toValue anonymous = f.2 ∧ (e.2.toValue anonymous).isVoid = false := by
  rw [answered, List.mem_filter, List.mem_map, Bool.not_eq_true']
  constructor
  · rintro ⟨⟨e, he, rfl⟩, h⟩
    exact ⟨e, he, rfl, rfl, h⟩
  · rintro ⟨e, he, hname, hvalue, h⟩
    exact ⟨⟨e, he, Prod.ext hname hvalue⟩, hvalue ▸ h⟩

theorem mem_names_entriesToRecord {entries : List (Key × Tree)} {name : String} :
    name ∈ (entriesToRecord anonymous .empty entries).names ↔
      ∃ e ∈ entries, e.1.render anonymous = name ∧ (e.2.toValue anonymous).isVoid = false := by
  rw [entriesToRecord_eq, Record.mem_names_foldl_add Record.names_set]
  simp only [mem_answered]
  constructor
  · rintro ⟨f, ⟨e, he, hname, -, h⟩, rfl⟩
    exact ⟨e, he, hname, h⟩
  · rintro ⟨e, he, hname, h⟩
    exact ⟨(name, e.2.toValue anonymous), ⟨e, he, hname, rfl, h⟩, rfl⟩

/-- **The answer of a tree is void when there are no data in the tree.** -/
theorem isVoid_toValue (t : Tree) : (t.toValue anonymous).isVoid = false ↔ t.HoldsData := by
  induction t using tree_induction with
  | seq s =>
    rw [toValue, Value.isVoid_list, holdsData_seq]
    constructor
    · rintro ⟨w, hw⟩
      obtain ⟨v, hv, h, -⟩ := mem_pruneValues.1 hw
      obtain ⟨item, hi, rfl⟩ := List.mem_map.1 hv
      exact ⟨item, hi, Value.hasData_iff.1 ((Value.isVoid_prune _).1 h)⟩
    · rintro ⟨item, hi, h⟩
      exact ⟨_, mem_pruneValues.2 ⟨.record item, List.mem_map_of_mem hi,
        (Value.isVoid_prune _).2 (Value.hasData_iff.2 h), rfl⟩⟩
  | map entries ih =>
    rw [toValue, Value.isVoid, Record.isEmpty_eq_false, holdsData_map]
    constructor
    · rintro ⟨name, h⟩
      obtain ⟨e, he, -, h⟩ := mem_names_entriesToRecord.1 h
      exact ⟨e, he, (ih e he).1 h⟩
    · rintro ⟨e, he, h⟩
      exact ⟨_, mem_names_entriesToRecord.2 ⟨e, he, rfl, (ih e he).2 h⟩⟩

/-- **The hierarchical answer is tidy.** -/
theorem tidy_toValue (t : Tree) : (t.toValue anonymous).Tidy := by
  induction t using tree_induction with
  | seq s => exact Value.tidy_pruneValues fun v _ => v.tidy_prune
  | map entries ih =>
    rw [toValue, Value.tidy_record, entriesToRecord_eq]
    refine ⟨Record.nodup_foldl_add Record.names_set _, fun f hf => ?_⟩
    -- whichever entry of a name is kept, it was added as an entry that is not void
    have hmem : f ∈ answered anonymous entries :=
      (Record.mem_foldl_add (fun _ _ _ _ => Record.mem_set) _ hf).resolve_left List.not_mem_nil
    obtain ⟨e, he, -, hvalue, hvoid⟩ := mem_answered.1 hmem
    rw [← hvalue]
    exact ⟨hvoid, ih e he⟩

end Tree

/-! ## Exactness -/

/--
**Pruning is exact.**  Nothing void is left strictly inside a value, and the value itself is void when
there are no data in it.  On every level it is the parts without data that are removed, so a part with
data stays, whatever becomes of its neighbours.  Pruning twice is pruning once, and where records have
distinct names the data stay in their order under the same names.  The hierarchical answer of a tree
is left as it is by pruning; in the record of a mapping there is a name when an entry is written like
that under which there are data.
-/
theorem Value.prune_exact :
    (∀ v : Value,
      (∀ part ∈ v.prune.parts, ∀ w : Value, w.Within part → w.isVoid = false) ∧
      (v.prune.isVoid = true ↔ ∀ w : Value, w.Within v → w.isDatum = false) ∧
      (∀ vs, v = .list vs → v.prune = .list ((vs.filter hasData).map prune)) ∧
      (∀ item, v = .record item → v.prune = .record (Record.ofFields
        ((item.fields.filter fun f => f.2.hasData).map fun f => (f.1, f.2.prune)))) ∧
      (v.hasData = true ↔ ∃ w : Value, w.isDatum = true ∧ w.Within v) ∧
      v.prune.prune = v.prune ∧
      (v.everywhere Item.hasDistinctNames (fun _ => true) = true → v.prune.data = v.data)) ∧
    ∀ anonymous : String,
      (∀ t : Tree, (t.toValue anonymous).prune = t.toValue anonymous) ∧
      ∀ entries : List (Key × Tree), ∃ r, (Tree.map entries).toValue anonymous = .record r ∧
        ∀ name, r.contains name = true ↔
          ∃ e ∈ entries, e.1.render anonymous = name ∧ e.2.HoldsData := by
  refine ⟨fun v => ⟨fun part hp w => isVoid_of_tidy v.tidy_prune hp, ?_, ?_, ?_, hasData_iff,
    prune_of_tidy v.tidy_prune, data_prune⟩, fun anonymous =>
    ⟨fun t => prune_of_tidy t.tidy_toValue, fun entries => ⟨_, by rw [Tree.toValue], ?_⟩⟩⟩
  · rw [← Bool.not_eq_false, isVoid_prune, hasData_iff]
    simp only [not_exists, not_and', Bool.not_eq_true]
  · rintro vs rfl
    exact prune_list vs
  · rintro item rfl
    exact prune_record item
  · intro name
    rw [Record.contains_iff, Tree.mem_names_entriesToRecord]
    simp only [Tree.isVoid_toValue]

/-- A list of empty records goes with its field; the number beside a null stays where it is. -/
theorem Value.prune_exact_nested :
    let v : Value := .record ⟨[("a", .list [.record ⟨[("x", .null)]⟩, .list []]),
      ("b", .list [.null, .record ⟨[("y", .int 0), ("z", .null)]⟩])]⟩
    v.everywhere Item.hasDistinctNames (fun _ => true) = true ∧
      v.prune = .record ⟨[("b", .list [.record ⟨[("y", .int 0)]⟩])]⟩ ∧
      v.prune.data = [(["b", "y"], .int 0)] := by
  intro v
  have hn : v.everywhere Item.hasDistinctNames (fun _ => true) = true := by decide
  obtain ⟨-, -, -, -, -, -, hdata⟩ := prune_exact.1 v
  exact ⟨hn, rfl, (hdata hn).trans rfl⟩

end GraphQuery
