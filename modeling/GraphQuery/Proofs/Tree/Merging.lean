import GraphQuery.Proofs.Operation.Overlay
import GraphQuery.Proofs.Tree.Leaves
import GraphQuery.Tree.Merge
/-!
# Merging trees

Mappings are merged by laying the entries of the one over those of the other
(`Tree.mergeEntries_eq`).  So under any keys a merge of trees holds what its operands hold there
together (`Tree.under?_mergeUnder`): what only one of them has is passed through, mappings have the
keys of both, and two sequences follow one another unless both are lone records without an
identifier, which are merged.  Trees fail to merge just when such records do, or when a sequence
meets a mapping (`Tree.merge_pathwise`).
-/

namespace GraphQuery

namespace Tree

/-! ## Trees by their keys -/

def under? : List Key → Tree → Option Tree
  | [], t => some t
  | key :: rest, map entries => (entries.lookup key).bind (under? rest)
  | _ :: _, seq _ => none

def seqOf : Option Tree → Option (Seq Item)
  | some (seq s) => some s
  | _ => none

def keysOf : Option Tree → List Key
  | some (map entries) => entries.map Prod.fst
  | _ => []

mutual

/-- Whether the keys of every mapping are pairwise distinct. -/
def distinctKeys : Tree → Bool
  | seq _ => true
  | map entries => decide (entries.map Prod.fst).Nodup && distinctKeysBelow entries
termination_by structural t => t

def distinctKeysBelow : List (Key × Tree) → Bool
  | [] => true
  | (_, t) :: rest => t.distinctKeys && distinctKeysBelow rest
termination_by structural entries => entries

end

theorem distinctKeysBelow_iff : ∀ {entries : List (Key × Tree)},
    distinctKeysBelow entries = true ↔ ∀ e ∈ entries, e.2.distinctKeys = true
  | [] => by simp [distinctKeysBelow]
  | e :: rest => by
    rw [distinctKeysBelow, Bool.and_eq_true, distinctKeysBelow_iff, List.forall_mem_cons]

theorem distinctKeys_map {entries : List (Key × Tree)} : (map entries).distinctKeys = true ↔
    (entries.map Prod.fst).Nodup ∧ ∀ e ∈ entries, e.2.distinctKeys = true := by
  rw [distinctKeys, Bool.and_eq_true, decide_eq_true_eq, distinctKeysBelow_iff]

variable {key : String} {l r t : Tree}

theorem distinctKeys_of_lookup {entries : List (Key × Tree)} {k : Key} {t : Tree}
    (h : (map entries).distinctKeys = true) (ht : entries.lookup k = some t) :
    t.distinctKeys = true := (distinctKeys_map.1 h).2 (k, t) (Overlay.mem_of_lookup ht)

theorem distinctKeys_under? {path : List Key} {x : Tree} (h : t.distinctKeys = true)
    (hx : t.under? path = some x) : x.distinctKeys = true := by
  induction path generalizing t with
  | nil => cases hx; exact h
  | cons k path ih =>
    cases t with
    | seq s => cases hx
    | map entries =>
      obtain ⟨u, hu, hx⟩ := Option.bind_eq_some_iff.1 hx
      exact ih (distinctKeys_of_lookup h hu) hx

/-! ## Merging mappings is laying entries over others -/

theorem putEntry_eq (key : Key) (added : Tree) (change : Tree → Tree → Except MergeConflict Tree) :
    ∀ entries : List (Key × Tree), putEntry key added (fun t => change t added) entries =
      Overlay.put change key added entries
  | [] => rfl
  | (k, t) :: rest => by rw [putEntry, Overlay.put, putEntry_eq key added change rest]

/-- **Merging mappings lays entries over others.** -/
theorem mergeEntries_eq : ∀ others entries : List (Key × Tree), mergeEntries entries others =
    Overlay.overlay (fun key => mergeUnder (conflictKey key)) entries others
  | [], _ => rfl
  | (key, t) :: rest, entries => by
    rw [mergeEntries, Overlay.overlay, putEntry_eq]
    exact congrArg _ (funext fun put => mergeEntries_eq rest put)

/-! ## Merging sequences -/

/-- Whether a sequence holds one item, and that has no identifier. -/
def IsLoneRecord (items : List Item) : Prop := ∃ item, items = [item] ∧ item.hasId = false

inductive Joined : List Item → List Item → List Item → Prop
  | merged {a b item : Item} : a.hasId = false → b.hasId = false → Item.merge a b = .ok item →
      Joined [a] [b] [item]
  | appended {xs ys : List Item} : ¬(IsLoneRecord xs ∧ IsLoneRecord ys) → Joined xs ys (xs ++ ys)

theorem mergeSeqs_lone {a b : Item} (ha : a.hasId = false) (hb : b.hasId = false) :
    mergeSeqs [a] [b] = (Item.merge a b).map ([·]) := by
  rw [mergeSeqs, ha, hb]
  rfl

theorem mergeSeqs_of_not_lone {xs ys : List Item} (h : ¬(IsLoneRecord xs ∧ IsLoneRecord ys)) :
    mergeSeqs xs ys = .ok (xs ++ ys) := by
  unfold mergeSeqs
  split
  · rename_i a b
    have hid : (a.hasId || b.hasId) = true := by
      by_contra hid
      rw [Bool.not_eq_true, Bool.or_eq_false_iff] at hid
      exact h ⟨⟨a, rfl, hid.1⟩, ⟨b, rfl, hid.2⟩⟩
    rw [if_pos hid]
    rfl
  · rfl

theorem mergeSeqs_eq_ok_iff {xs ys items : List Item} :
    mergeSeqs xs ys = .ok items ↔ Joined xs ys items := by
  constructor
  · intro h
    by_cases hlone : IsLoneRecord xs ∧ IsLoneRecord ys
    · obtain ⟨⟨a, rfl, ha⟩, ⟨b, rfl, hb⟩⟩ := hlone
      rw [mergeSeqs_lone ha hb] at h
      obtain ⟨item, hm, rfl⟩ := Except.map_eq_ok.1 h
      exact .merged ha hb hm
    · cases (mergeSeqs_of_not_lone hlone).symm.trans h
      exact .appended hlone
  · rintro (⟨ha, hb, hm⟩ | hlone)
    · rw [mergeSeqs_lone ha hb, hm]
      rfl
    · exact mergeSeqs_of_not_lone hlone

/-! ## The cases of a merge -/

theorem mergeUnder_map_eq_ok {entries others : List (Key × Tree)} :
    mergeUnder key (map entries) (map others) = .ok t ↔
      ∃ merged, Overlay.overlay (fun key => mergeUnder (conflictKey key)) entries others =
        .ok merged ∧ map merged = t := by
  rw [mergeUnder, mergeEntries_eq, Except.map_eq_ok]

theorem mergeUnder_seq_eq_ok {a b : Seq Item} : mergeUnder key (seq a) (seq b) = .ok t ↔
    ∃ items, Joined a.toList b.toList items ∧ seq (.buffered items) = t := by
  simp only [mergeUnder, Except.map_eq_ok, mergeSeqs_eq_ok_iff]

/-- **Sequences are joined and mappings laid over one another**, and nothing else merges. -/
theorem mergeUnder_cases (h : mergeUnder key l r = .ok t) :
    (∃ a b items, l = seq a ∧ r = seq b ∧ Joined a.toList b.toList items ∧
      t = seq (.buffered items)) ∨
    ∃ entries others merged, l = map entries ∧ r = map others ∧
      Overlay.overlay (fun key => mergeUnder (conflictKey key)) entries others = .ok merged ∧
        t = map merged := by
  cases l with
  | seq a => cases r with
    | seq b =>
      obtain ⟨items, hj, rfl⟩ := mergeUnder_seq_eq_ok.1 h
      exact .inl ⟨a, b, items, rfl, rfl, hj, rfl⟩
    | map others => cases h
  | map entries => cases r with
    | seq b => cases h
    | map others =>
      obtain ⟨merged, hm, rfl⟩ := mergeUnder_map_eq_ok.1 h
      exact .inr ⟨entries, others, merged, rfl, rfl, hm, rfl⟩

/-- **Under any keys a merge holds what its operands hold there together.** -/
theorem under?_mergeUnder (path : List Key) (hl : l.distinctKeys = true)
    (hr : r.distinctKeys = true) (h : mergeUnder key l r = .ok t) :
    ∃ key', Overlay.both (mergeUnder key') (l.under? path) (r.under? path) =
      .ok (t.under? path) := by
  induction path generalizing key l r t with
  | nil => exact ⟨key, Except.map_eq_ok.2 ⟨t, h, rfl⟩⟩
  | cons k path ih =>
    obtain ⟨a, b, items, rfl, rfl, -, rfl⟩ | ⟨entries, others, merged, rfl, rfl, hm, rfl⟩ :=
      mergeUnder_cases h
    · exact ⟨key, rfl⟩
    · have hk := Overlay.lookup_overlay k (distinctKeys_map.1 hr).1 hm
      simp only [under?]
      rcases Overlay.both_cases hk with ⟨hx, hy⟩ | ⟨hy, hx⟩ | ⟨x, y, z, hx, hy, hz, hm⟩
      · exact ⟨key, by rw [hx, hy]; rfl⟩
      · exact ⟨key, by rw [hx, hy]; exact Overlay.both_none _ _⟩
      · rw [hx, hy, hz]
        exact ih (distinctKeys_of_lookup hl hx) (distinctKeys_of_lookup hr hy) hm

theorem distinctKeys_mergeUnder (hl : l.distinctKeys = true) (hr : r.distinctKeys = true)
    (h : mergeUnder key l r = .ok t) : t.distinctKeys = true := by
  induction l using tree_induction generalizing key r t with
  | seq a =>
    obtain ⟨_, _, _, -, -, -, rfl⟩ | ⟨_, _, _, hmap, -⟩ := mergeUnder_cases h
    · rfl
    · cases hmap
  | map entries ih =>
    obtain ⟨_, _, _, hseq, -⟩ | ⟨_, others, merged, he, rfl, hm, rfl⟩ := mergeUnder_cases h
    · cases hseq
    · cases he
      have hnr := (distinctKeys_map.1 hr).1
      have hn := Overlay.nodup_overlay (distinctKeys_map.1 hl).1 hnr hm
      refine distinctKeys_map.2 ⟨hn, fun e he => ?_⟩
      have hk := Overlay.lookup_overlay e.1 hnr hm
      rw [Overlay.lookup_of_mem hn he] at hk
      rcases Overlay.both_cases hk with ⟨-, hy⟩ | ⟨-, hx⟩ | ⟨x, y, z, hx, hy, hz, hm⟩
      · exact distinctKeys_of_lookup hr hy
      · exact distinctKeys_of_lookup hl hx
      · obtain rfl := Option.some.inj hz
        exact ih (e.1, x) (Overlay.mem_of_lookup hx) (distinctKeys_of_lookup hl hx)
          (distinctKeys_of_lookup hr hy) hm

/-! ## When merging fails -/

/-- Whether two trees under the same keys cannot be merged, whatever their entries. -/
inductive Clash : Tree → Tree → Prop
  | sequence (s : Seq Item) (entries : List (Key × Tree)) : Clash (seq s) (map entries)
  | mapping (entries : List (Key × Tree)) (s : Seq Item) : Clash (map entries) (seq s)
  | records {s s' : Seq Item} {a b : Item} {conflict : MergeConflict} : s.toList = [a] →
      s'.toList = [b] → a.hasId = false → b.hasId = false → Item.merge a b = .error conflict →
        Clash (seq s) (seq s')

theorem ne_ok_of_clash (h : Clash l r) : mergeUnder key l r ≠ .ok t := by
  cases h with
  | sequence s entries => nofun
  | mapping entries s => nofun
  | records hs hs' ha hb hm =>
    rw [mergeUnder, hs, hs', mergeSeqs_lone ha hb, hm]
    nofun

theorem exists_joined {a b : Seq Item} (h : ¬Clash (seq a) (seq b)) :
    ∃ items, Joined a.toList b.toList items := by
  by_cases hlone : IsLoneRecord a.toList ∧ IsLoneRecord b.toList
  · obtain ⟨⟨x, hx, hxid⟩, ⟨y, hy, hyid⟩⟩ := hlone
    rw [hx, hy]
    cases hm : Item.merge x y with
    | ok item => exact ⟨[item], .merged hxid hyid hm⟩
    | error conflict => exact absurd (.records hx hy hxid hyid hm) h
  · exact ⟨_, .appended hlone⟩

/-- **Trees merge unless they clash under some keys.** -/
theorem exists_mergeUnder (key : String) (hr : r.distinctKeys = true)
    (h : ∀ path x y, l.under? path = some x → r.under? path = some y → ¬Clash x y) :
    ∃ t, mergeUnder key l r = .ok t := by
  induction l using tree_induction generalizing key r with
  | seq a => cases r with
    | seq b =>
      obtain ⟨items, hj⟩ := exists_joined (h [] _ _ rfl rfl)
      exact ⟨_, mergeUnder_seq_eq_ok.2 ⟨items, hj, rfl⟩⟩
    | map others => exact absurd (.sequence a others) (h [] _ _ rfl rfl)
  | map entries ih => cases r with
    | seq b => exact absurd (.mapping entries b) (h [] _ _ rfl rfl)
    | map others =>
      have hboth (k : Key) : ∃ found, Overlay.both (mergeUnder (conflictKey k))
          (entries.lookup k) (others.lookup k) = .ok found := by
        refine Overlay.exists_both fun x y hx hy => ?_
        refine ih (k, x) (Overlay.mem_of_lookup hx) _ (distinctKeys_of_lookup hr hy) ?_
        -- what clashes below the key does so below the mappings that hold it
        intro path u v hu hv
        exact h (k :: path) u v ((congrArg (·.bind (under? path)) hx).trans hu)
          ((congrArg (·.bind (under? path)) hy).trans hv)
      obtain ⟨merged, hm⟩ := Overlay.exists_overlay (distinctKeys_map.1 hr).1 hboth
      exact ⟨_, mergeUnder_map_eq_ok.2 ⟨merged, hm, rfl⟩⟩

/-! ## What a merge holds under all keys -/

inductive Gathered : Option (Seq Item) → Option (Seq Item) → Option (Seq Item) → Prop
  | none : Gathered none none none
  | left (s : Seq Item) : Gathered (some s) none (some s)
  | right (s : Seq Item) : Gathered none (some s) (some s)
  | both {a b : Seq Item} {items : List Item} : Joined a.toList b.toList items →
      Gathered (some a) (some b) (some (.buffered items))

/-- What a merge of two trees is, key path by key path. -/
structure Merged (l r t : Tree) : Prop where
  distinct : t.distinctKeys = true
  /-- A mapping has the keys of the first one and behind them the new ones of the second. -/
  keys : ∀ path, keysOf (t.under? path) = keysOf (l.under? path) ++
    (keysOf (r.under? path)).filter (· ∉ keysOf (l.under? path))
  seqs : ∀ path, Gathered (seqOf (l.under? path)) (seqOf (r.under? path)) (seqOf (t.under? path))

theorem gathered_none (x : Option Tree) : Gathered (seqOf x) none (seqOf x) := by
  cases seqOf x with
  | none => exact .none
  | some s => exact .left s

theorem none_gathered (x : Option Tree) : Gathered none (seqOf x) (seqOf x) := by
  cases seqOf x with
  | none => exact .none
  | some s => exact .right s

theorem gathered_of_both {x y z : Option Tree} (h : Overlay.both (mergeUnder key) x y = .ok z) :
    Gathered (seqOf x) (seqOf y) (seqOf z) := by
  obtain ⟨rfl, rfl⟩ | ⟨rfl, rfl⟩ | ⟨l, r, t, rfl, rfl, rfl, hm⟩ := Overlay.both_cases h
  · exact none_gathered y
  · exact gathered_none x
  · obtain ⟨a, b, items, rfl, rfl, hj, rfl⟩ | ⟨entries, others, merged, rfl, rfl, -, rfl⟩ :=
      mergeUnder_cases hm
    · exact .both hj
    · exact .none

theorem keysOf_of_both {x y z : Option Tree} (hy : ∀ t, y = some t → t.distinctKeys = true)
    (h : Overlay.both (mergeUnder key) x y = .ok z) :
    keysOf z = Overlay.joinKeys (keysOf x) (keysOf y) := by
  obtain ⟨rfl, rfl⟩ | ⟨rfl, rfl⟩ | ⟨l, r, t, rfl, rfl, rfl, hm⟩ := Overlay.both_cases h
  · exact (List.filter_eq_self.2 fun _ _ => rfl).symm
  · exact (List.append_nil _).symm
  · obtain ⟨a, b, items, rfl, rfl, -, rfl⟩ | ⟨entries, others, merged, rfl, rfl, ho, rfl⟩ :=
      mergeUnder_cases hm
    · rfl
    · exact Overlay.map_fst_overlay (distinctKeys_map.1 (hy _ rfl)).1 ho

/--
**Merging trees loses nothing and misplaces nothing**, and fails just when the trees clash under
some keys.
-/
theorem merge_pathwise (hl : l.distinctKeys = true) (hr : r.distinctKeys = true) :
    (∀ t, l.merge r = .ok t → Merged l r t) ∧
      ((∃ conflict, l.merge r = .error conflict) ↔
        ∃ path x y, l.under? path = some x ∧ r.under? path = some y ∧ Clash x y) := by
  constructor
  · intro t h
    refine ⟨distinctKeys_mergeUnder hl hr h, fun path => ?_, fun path => ?_⟩
    · obtain ⟨key, hboth⟩ := under?_mergeUnder path hl hr h
      exact keysOf_of_both (fun _ => distinctKeys_under? hr) hboth
    · obtain ⟨key, hboth⟩ := under?_mergeUnder path hl hr h
      exact gathered_of_both hboth
  · rw [Except.exists_error_iff]
    constructor
    · intro herr
      by_contra hclash
      refine herr (exists_mergeUnder "" hr fun path x y hx hy hc => hclash ?_)
      exact ⟨path, x, y, hx, hy, hc⟩
    · rintro ⟨path, x, y, hx, hy, hc⟩ ⟨t, ht⟩
      obtain ⟨key, hboth⟩ := under?_mergeUnder path hl hr ht
      rw [hx, hy] at hboth
      obtain ⟨z, hz, -⟩ := Except.map_eq_ok.1 hboth
      exact ne_ok_of_clash hc hz

/-- Mappings within mappings, with lone records under one key; a sequence does not fit there. -/
theorem merge_pathwise_nested :
    let record (n : Int64) : Tree := seq (.buffered [⟨[("n", .int n)]⟩])
    let ids (s : List Int64) : Tree := seq (.lazy (.ofSource 0 (s.map fun i => .ofId (.int i))))
    let l := map [(.name "m", map [(.name "a", ids [1]), (.anon, record 1)]), (.name "x", ids [2])]
    let r := map [(.name "y", ids [3]), (.name "m", map [(.anon, record 2), (.name "a", ids [4])])]
    let t := map [(.name "m", map [(.name "a", seq (.buffered [.ofId (.int 1), .ofId (.int 4)])),
      (.anon, record 3)]), (.name "x", ids [2]), (.name "y", ids [3])]
    let r' := map [(.name "m", ids [])]
    (l.distinctKeys = true ∧ r.distinctKeys = true ∧ r'.distinctKeys = true) ∧
      l.merge r = .ok t ∧ Merged l r t ∧ ∃ conflict, l.merge r' = .error conflict := by
  intro record ids l r t r'
  have hl : l.distinctKeys = true := by decide
  have hr : r.distinctKeys = true := by decide
  have hr' : r'.distinctKeys = true := by decide
  have ht : l.merge r = .ok t := rfl
  exact ⟨⟨hl, hr, hr'⟩, ht, (merge_pathwise hl hr).1 t ht,
    (merge_pathwise hl hr').2.2 ⟨[.name "m"], _, _, rfl, rfl, .mapping _ _⟩⟩

end Tree

end GraphQuery
