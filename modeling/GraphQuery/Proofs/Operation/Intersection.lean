import GraphQuery.Proofs.Operation.Origin
import GraphQuery.Proofs.Value.Plain
import Mathlib.Algebra.Order.BigOperators.Group.List
import Mathlib.Algebra.Order.Group.Nat
/-!
# Intersecting sorted flows

An intersection advances several flows in step and drops the heads above the lowest one.  If the
flows come by descending identifier, and identifiers hold neither floats nor records, nothing that
it drops could have been shared.  `SetAlgebra.intersect_sorted` says what comes out: of the items
with an identifier in the first flow, as many of the first ones as every flow has.

`SetAlgebra.intersectRounds` is given a bound on the number of rounds.  The rounds of
`SetAlgebra.IntersectRounds` have none and only stop at the end of a flow, and every intersection is
a run of them (`SetAlgebra.ends_intersectRounds`).
-/

namespace GraphQuery

namespace SetAlgebra

/-- Whether items come by descending identifier, identifiers being free of floats and records. -/
structure Descending (items : List Item) : Prop where
  plain : ∀ a ∈ items, (key a).isPlain = true
  sorted : items.Pairwise fun a b => ((key b).order (key a)).isLE = true

theorem Descending.sublist {l items : List Item} (h : Descending items) (hs : l.Sublist items) :
    Descending l :=
  ⟨fun a ha => h.plain a (hs.subset ha), h.sorted.sublist hs⟩

theorem Descending.tail {a : Item} {items : List Item} (h : Descending (a :: items)) :
    Descending items := h.sublist (List.sublist_cons_self a items)

def occurrences (v : Value) (items : List Item) : Nat := items.countP (key · == v)

def fewest (v : Value) (lists : List (List Item)) : Nat :=
  (lists.map (occurrences v)).min?.getD 0

/-! ## Heads -/

theorem toList_of_heads : ∀ {fs : List (Flow Item)} {pulls : List Nat} {hs : List Head},
    heads fs = (pulls, some hs) → fs.map Flow.toList = hs.map fun x => x.flow.toList
  | [], _, _, hh => by cases hh; rfl
  | f :: rest, pulls, hs, hh => by
    rw [heads] at hh
    split at hh
    · cases hh
    · rename_i asked g hg
      obtain ⟨gs, hgs, rfl⟩ := Option.map_eq_some_iff.1 (congrArg Prod.snd hh)
      rw [List.map_cons, List.map_cons, toList_of_head (congrArg Prod.snd hg),
        toList_of_heads (Prod.ext rfl hgs)]

theorem exists_ended : ∀ {fs : List (Flow Item)} {pulls : List Nat},
    heads fs = (pulls, none) → ∃ f ∈ fs, f.toList = []
  | [], _, hh => by cases hh
  | f :: rest, pulls, hh => by
    rw [heads] at hh
    split at hh
    · rename_i asked hf
      refine ⟨f, List.mem_cons_self, ?_⟩
      unfold head at hf
      rw [Flow.toList_next, Option.map_eq_none_iff.1 (congrArg Prod.snd hf)]
      rfl
    · obtain ⟨g, hg, he⟩ :=
        exists_ended (Prod.ext rfl (Option.map_eq_none_iff.1 (congrArg Prod.snd hh)))
      exact ⟨g, List.mem_cons_of_mem f hg, he⟩

theorem forall_of_heads {P : List Item → Prop} {fs : List (Flow Item)} {pulls : List Nat}
    {hs : List Head} (hh : heads fs = (pulls, some hs)) (h : ∀ f ∈ fs, P f.toList) :
    ∀ x ∈ hs, P x.flow.toList := by
  intro x hx
  have hm : x.flow.toList ∈ fs.map Flow.toList := by
    rw [toList_of_heads hh]
    exact List.mem_map_of_mem hx
  obtain ⟨f, hf, he⟩ := List.mem_map.1 hm
  exact he ▸ h f hf

/-! ## The lowest key -/

theorem lowest_cons (first k : Value) (rest : List Value) :
    lowest first (k :: rest) = lowest (if first.order k = .gt then k else first) rest := rfl

theorem lowest_mem : ∀ (first : Value) (others : List Value),
    lowest first others ∈ first :: others
  | first, [] => List.mem_cons_self
  | first, k :: rest => by
    rw [lowest_cons]
    split
    · exact List.mem_cons_of_mem first (lowest_mem k rest)
    · rcases List.mem_cons.1 (lowest_mem first rest) with h | h
      · exact List.mem_cons.2 (.inl h)
      · exact List.mem_cons_of_mem first (List.mem_cons_of_mem k h)

/-- **No key lies below the lowest one.** -/
theorem lowest_le : ∀ {first : Value} {others : List Value},
    (∀ k ∈ first :: others, k.isPlain = true) →
      ∀ k ∈ first :: others, ((lowest first others).order k).isLE = true
  | first, [], _, j, hj => by
    rw [List.mem_singleton.1 hj, lowest, List.foldl_nil, Value.order_self]
    rfl
  | first, k :: rest, hp, j, hj => by
    have hfirst := hp first List.mem_cons_self
    have hk := hp k (List.mem_cons_of_mem first List.mem_cons_self)
    have hrest : ∀ i ∈ rest, i.isPlain = true := fun i hi =>
      hp i (List.mem_cons_of_mem first (List.mem_cons_of_mem k hi))
    -- `m` is the lower one of the first two keys, and the lowest of all lies at or below it
    generalize hm : (if first.order k = .gt then k else first) = m
    have hplain : m.isPlain = true := by split at hm <;> exact hm ▸ ‹_›
    have hle : (m.order first).isLE = true ∧ (m.order k).isLE = true := by
      split at hm
      · rename_i hgt
        rw [← hm, Value.order_swap first k, hgt, Value.order_self]
        exact ⟨rfl, rfl⟩
      · rename_i hgt
        rw [← hm, Value.order_self]
        refine ⟨rfl, ?_⟩
        cases ho : first.order k with
        | gt => exact absurd ho hgt
        | _ => rfl
    have hall : ∀ i ∈ m :: rest, i.isPlain = true := List.forall_mem_cons.2 ⟨hplain, hrest⟩
    have hlow := hall _ (lowest_mem m rest)
    have hm' := lowest_le hall m List.mem_cons_self
    rw [lowest_cons, hm]
    rcases List.mem_cons.1 hj with rfl | hj
    · exact Value.order_trans hlow hplain hfirst hm' hle.1
    · rcases List.mem_cons.1 hj with rfl | hj
      · exact Value.order_trans hlow hplain hk hm' hle.2
      · exact lowest_le hall j (List.mem_cons_of_mem m hj)

def lowestKey (h : Head) (hs : List Head) : Value := lowest h.key (hs.map Head.key)

section

variable {h : Head} {hs : List Head}

theorem isPlain_of_descending (hd : ∀ x ∈ h :: hs, Descending x.flow.toList) :
    ∀ x ∈ h :: hs, x.key.isPlain = true := fun x hx => (hd x hx).plain x.item List.mem_cons_self

theorem exists_lowestKey (h : Head) (hs : List Head) : ∃ x ∈ h :: hs, x.key = lowestKey h hs :=
  List.mem_map.1 (List.map_cons ▸ lowest_mem h.key (hs.map Head.key))

variable (hp : ∀ x ∈ h :: hs, x.key.isPlain = true)

include hp

theorem lowestKey_le : ∀ x ∈ h :: hs, ((lowestKey h hs).order x.key).isLE = true := by
  intro x hx
  refine lowest_le (fun k hk => ?_) x.key (List.map_cons ▸ List.mem_map_of_mem hx)
  rw [← List.map_cons] at hk
  obtain ⟨y, hy, rfl⟩ := List.mem_map.1 hk
  exact hp y hy

theorem isPlain_lowestKey : (lowestKey h hs).isPlain = true := by
  obtain ⟨x, hx, he⟩ := exists_lowestKey h hs
  exact he ▸ hp x hx

theorem order_lowestKey_of_ne {x : Head} (hx : x ∈ h :: hs)
    (hne : x.key.order (lowestKey h hs) ≠ .eq) : x.key.order (lowestKey h hs) = .gt := by
  have hle := lowestKey_le hp x hx
  rw [Value.order_swap (lowestKey h hs) x.key] at hne ⊢
  cases ho : (lowestKey h hs).order x.key with
  | lt => rfl
  | eq => rw [ho] at hne; exact absurd rfl hne
  | gt => rw [ho] at hle; cases hle

end

/-! ## Rounds -/

def Head.above (low : Value) (x : Head) : Flow Item :=
  if x.key.order low = .gt then x.rest else x.flow

/-- The rounds of an intersection and what they do, up to the one that finds that a flow ended. -/
inductive IntersectRounds : List (Flow Item) → List (Event Item) → Prop where
  | ended {fs : List (Flow Item)} {pulls : List Nat} (hh : heads fs = (pulls, none)) :
      IntersectRounds fs (Flow.pulling pulls)
  | agreed {fs : List (Flow Item)} {pulls : List Nat} {h : Head} {hs : List Head}
      {events : List (Event Item)} (hh : heads fs = (pulls, some (h :: hs)))
      (ties : ∀ x ∈ h :: hs, x.key.order (lowestKey h hs) = .eq)
      (next : IntersectRounds ((h :: hs).map Head.rest) events) :
      IntersectRounds fs (Flow.pulling pulls ++ .yield h.item :: events)
  | passed {fs : List (Flow Item)} {pulls : List Nat} {h : Head} {hs : List Head}
      {events : List (Event Item)} (hh : heads fs = (pulls, some (h :: hs)))
      (differs : ∃ x ∈ h :: hs, x.key.order (lowestKey h hs) ≠ .eq)
      (next : IntersectRounds ((h :: hs).map (Head.above (lowestKey h hs))) events) :
      IntersectRounds fs (Flow.pulling pulls ++ events)

section

variable {fs : List (Flow Item)} {pulls : List Nat} {h : Head} {hs : List Head}

theorem Head.sublist_above (x : Head) (low : Value) :
    (x.above low).toList.Sublist x.flow.toList := by
  unfold Head.above
  split
  · exact List.sublist_cons_self _ _
  · exact List.Sublist.refl _

theorem size_eq (fs : List (Flow Item)) :
    size fs = ((fs.map Flow.toList).map List.length).sum := by
  rw [size, List.length_flatMap, List.map_map]
  rfl

theorem size_lt_of_heads (hh : heads fs = (pulls, some hs)) {g : Head → Flow Item}
    (hle : ∀ x ∈ hs, (g x).toList.length ≤ x.flow.toList.length)
    (hlt : ∃ x ∈ hs, (g x).toList.length < x.flow.toList.length) : size (hs.map g) < size fs := by
  rw [size_eq, size_eq, toList_of_heads hh, List.map_map, List.map_map, List.map_map]
  exact List.sum_lt_sum _ _ hle hlt

/-- **The rounds end**, for each of them takes a head from a flow. -/
theorem ends_intersectRounds : ∀ (rounds : Nat) {fs : List (Flow Item)}, fs ≠ [] →
    (∀ f ∈ fs, Descending f.toList) → size fs < rounds →
      IntersectRounds fs (intersectRounds rounds fs)
  | 0, _, _, _, hs => absurd hs (Nat.not_lt_zero _)
  | rounds + 1, fs, hne, hd, hs => by
    rw [intersectRounds]
    split
    · rename_i pulls hh
      exact .ended hh
    · rename_i pulls hh
      exact absurd (List.map_eq_nil_iff.1 (toList_of_heads hh)) hne
    · rename_i pulls h hs' hh
      have hd' := forall_of_heads hh hd
      have hp := isPlain_of_descending hd'
      dsimp only
      split
      · rename_i hall
        have ties : ∀ x ∈ h :: hs', x.key.order (lowestKey h hs') = .eq := fun x hx =>
          of_decide_eq_true (List.all_eq_true.1 hall x hx)
        refine .agreed hh ties (ends_intersectRounds rounds (by simp) ?_ ?_)
        · exact List.forall_mem_map.2 fun x hx => (hd' x hx).tail
        · have hlt := size_lt_of_heads hh (g := Head.rest) (fun x _ => Nat.le_succ _)
            ⟨h, List.mem_cons_self, Nat.lt_succ_self _⟩
          omega
      · rename_i hall
        have differs : ∃ x ∈ h :: hs', x.key.order (lowestKey h hs') ≠ .eq := by
          obtain ⟨x, hx, hnot⟩ := List.all_eq_false.1 (Bool.not_eq_true _ ▸ hall)
          exact ⟨x, hx, fun he => hnot (decide_eq_true he)⟩
        refine .passed hh differs (ends_intersectRounds rounds (by simp) ?_ ?_)
        · exact List.forall_mem_map.2 fun x hx => (hd' x hx).sublist (x.sublist_above _)
        · obtain ⟨x, hx, hne⟩ := differs
          have hgt := order_lowestKey_of_ne hp hx hne
          have hlt := size_lt_of_heads hh (g := Head.above (lowestKey h hs'))
            (fun y _ => (y.sublist_above _).length_le)
            ⟨x, hx, by rw [Head.above, if_pos hgt]; exact Nat.lt_succ_self _⟩
          omega

end

/-! ## What the rounds hand out -/

section

variable {v : Value}

theorem fewest_eq_iff {lists : List (List Item)} (hne : lists ≠ []) {n : Nat} :
    fewest v lists = n ↔ (∃ l ∈ lists, occurrences v l = n) ∧ ∀ l ∈ lists, n ≤ occurrences v l := by
  cases hm : (lists.map (occurrences v)).min? with
  | none => exact absurd (List.map_eq_nil_iff.1 (List.min?_eq_none_iff.1 hm)) hne
  | some m =>
    have hs : (lists.map (occurrences v)).min? = some n ↔ _ := List.min?_eq_some_iff
    rw [hm, Option.some_inj, List.mem_map, List.forall_mem_map] at hs
    rw [fewest, hm]
    exact hs

theorem fewest_eq_zero {lists : List (List Item)} (h : ∃ l ∈ lists, occurrences v l = 0) :
    fewest v lists = 0 := by
  obtain ⟨l, hl, h0⟩ := h
  exact (fewest_eq_iff (List.ne_nil_of_mem hl)).2 ⟨⟨l, hl, h0⟩, fun _ _ => Nat.zero_le _⟩

theorem fewest_map {α : Type} {xs : List α} (hne : xs ≠ []) {f g : α → List Item} {n : Nat}
    (h : ∀ x ∈ xs, occurrences v (f x) = occurrences v (g x) + n) :
    fewest v (xs.map f) = fewest v (xs.map g) + n := by
  have hg : xs.map g ≠ [] := fun he => hne (List.map_eq_nil_iff.1 he)
  obtain ⟨⟨l, hl, he⟩, hle⟩ := (fewest_eq_iff hg (v := v)).1 rfl
  obtain ⟨x, hx, rfl⟩ := List.mem_map.1 hl
  refine (fewest_eq_iff fun he => hne (List.map_eq_nil_iff.1 he)).2
    ⟨⟨f x, List.mem_map_of_mem hx, by rw [h x hx, he]⟩, List.forall_mem_map.2 fun y hy => ?_⟩
  rw [h y hy]
  exact Nat.add_le_add_right (hle (g y) (List.mem_map_of_mem hy)) n

theorem Descending.notAbove {x : Head} (hd : Descending x.flow.toList) :
    ∀ a ∈ x.flow.toList, ((key a).order x.key).isLE = true := by
  intro a ha
  rcases List.mem_cons.1 ha with rfl | ha
  · exact congrArg Ordering.isLE (Value.order_self x.key)
  · exact List.rel_of_pairwise_cons hd.sorted ha

theorem occurrences_eq_zero {x : Head} (hd : Descending x.flow.toList)
    (hgt : v.order x.key = .gt) : occurrences v x.flow.toList = 0 := by
  refine List.countP_eq_zero.2 fun b hb he => ?_
  have hle := hd.notAbove b hb
  rw [(Value.beq_iff_eq (hd.plain b hb)).1 he, hgt] at hle
  cases hle

end

def shared (v : Value) (lists : List (List Item)) : List Item :=
  ((lists.headD []).filter (key · == v)).take (fewest v lists)

section

variable {h : Head} {hs : List Head} (hd : ∀ x ∈ h :: hs, Descending x.flow.toList)

include hd

/-- **A round in which all heads tie takes one item of each flow that is shared.** -/
theorem shared_of_ties (ties : ∀ x ∈ h :: hs, x.key.order (lowestKey h hs) = .eq) (v : Value) :
    shared v ((h :: hs).map fun x => x.flow.toList) =
      (if h.key == v then [h.item] else []) ++
        shared v (((h :: hs).map Head.rest).map Flow.toList) := by
  have hp := isPlain_of_descending hd
  have hlow : ∀ x ∈ h :: hs, x.key = lowestKey h hs := fun x hx =>
    Value.eq_of_order (hp x hx) (isPlain_lowestKey hp) (ties x hx)
  have hcount : ∀ x ∈ h :: hs, occurrences v x.flow.toList =
      occurrences v x.rest.toList + if h.key == v then 1 else 0 := fun x hx => by
    rw [hlow h List.mem_cons_self, ← hlow x hx]
    exact List.countP_cons
  rw [shared, shared, List.map_map, fewest_map (List.cons_ne_nil h hs) hcount]
  show ((h.item :: h.rest.toList).filter _).take _ = _ ++ (h.rest.toList.filter _).take _
  rw [List.filter_cons]
  show List.take _ (if h.key == v then _ else _) = _
  split <;> rfl

/-- **A round in which the heads do not all tie drops nothing that is shared.** -/
theorem shared_above (v : Value) :
    shared v ((h :: hs).map fun x => x.flow.toList) =
      shared v (((h :: hs).map (Head.above (lowestKey h hs))).map Flow.toList) := by
  have hp := isPlain_of_descending hd
  rw [shared, shared, List.map_map]
  by_cases hv : ∃ x ∈ h :: hs, x.key.order (lowestKey h hs) = .gt ∧ (x.key == v) = true
  · -- the flow with the lowest head has no such item, before the round or after it
    obtain ⟨x, hx, hgt, he⟩ := hv
    rw [(Value.beq_iff_eq (hp x hx)).1 he] at hgt
    obtain ⟨g, hg, hlow⟩ := exists_lowestKey h hs
    have h0 := occurrences_eq_zero (hd g hg) (hlow ▸ hgt)
    have habove : g.above (lowestKey h hs) = g.flow := by
      rw [Head.above, hlow, Value.order_self]
      rfl
    rw [fewest_eq_zero ⟨_, List.mem_map_of_mem hg, h0⟩,
      fewest_eq_zero ⟨_, List.mem_map_of_mem hg, by rw [Function.comp, habove, h0]⟩,
      List.take_zero, List.take_zero]
  · -- what the round drops are other items
    have hsame : ∀ x ∈ h :: hs, x.flow.toList.filter (key · == v) =
        (x.above (lowestKey h hs)).toList.filter (key · == v) := fun x hx => by
      unfold Head.above
      split
      · rename_i hgt
        exact List.filter_cons_of_neg (p := (key · == v)) fun he => hv ⟨x, hx, hgt, he⟩
      · rfl
    have hcount : ∀ x ∈ h :: hs, occurrences v x.flow.toList =
        occurrences v (x.above (lowestKey h hs)).toList + 0 := fun x hx => by
      rw [occurrences, occurrences, List.countP_eq_length_filter, hsame x hx,
        List.countP_eq_length_filter, Nat.add_zero]
    rw [fewest_map (List.cons_ne_nil h hs) hcount, Nat.add_zero]
    exact congrArg (List.take _) (hsame h List.mem_cons_self)

end

variable {fs : List (Flow Item)} {events : List (Event Item)}

theorem IntersectRounds.sublist (hr : IntersectRounds fs events) :
    (⟨events⟩ : Flow Item).toList.Sublist ((fs.map Flow.toList).headD []) := by
  induction hr with
  | ended hh =>
    rw [← List.append_nil (Flow.pulling _), Flow.toList_pulling]
    exact List.nil_sublist _
  | agreed hh ties next ih =>
    rw [Flow.toList_pulling, toList_of_heads hh]
    exact ih.cons_cons _
  | @passed fs pulls h hs events hh differs next ih =>
    rw [Flow.toList_pulling, toList_of_heads hh]
    exact ih.trans (h.sublist_above _)

theorem IntersectRounds.filter (hr : IntersectRounds fs events)
    (hd : ∀ f ∈ fs, Descending f.toList) (v : Value) :
    (⟨events⟩ : Flow Item).toList.filter (key · == v) = shared v (fs.map Flow.toList) := by
  induction hr with
  | @ended fs pulls hh =>
    obtain ⟨f, hf, he⟩ := exists_ended hh
    rw [shared, fewest_eq_zero ⟨[], he ▸ List.mem_map_of_mem hf, rfl⟩, List.take_zero,
      ← List.append_nil (Flow.pulling pulls), Flow.toList_pulling]
    rfl
  | @agreed fs pulls h hs events hh ties next ih =>
    have hd' := forall_of_heads hh hd
    rw [toList_of_heads hh, shared_of_ties hd' ties v,
      ← ih (List.forall_mem_map.2 fun x hx => (hd' x hx).tail), Flow.toList_pulling,
      Flow.toList_mk_yield, List.filter_cons]
    show (if h.key == v then _ else _) = _
    split <;> rfl
  | @passed fs pulls h hs events hh differs next ih =>
    have hd' := forall_of_heads hh hd
    rw [toList_of_heads hh, shared_above hd' v,
      ← ih (List.forall_mem_map.2 fun x hx => (hd' x hx).sublist (x.sublist_above _)),
      Flow.toList_pulling]

/-! ## The intersection -/

structure IsIntersection (first : List Item) (others : List (List Item)) (out : List Item) :
    Prop where
  sublist : out.Sublist first
  /-- Of the items with an identifier, the first list's first ones come out. -/
  taken : ∀ v, out.filter (key · == v) =
    (first.filter (key · == v)).take (fewest v (first :: others))
  number : ∀ v, occurrences v out = fewest v (first :: others)
  descending : Descending out

/-- **Intersecting sorted flows ends, and comes to what they share.** -/
theorem intersect_sorted {f : Flow Item} {fs : List (Flow Item)}
    (hd : ∀ g ∈ f :: fs, Descending g.toList) :
    IntersectRounds (f :: fs) (intersect (f :: fs)).events ∧
      IsIntersection f.toList (fs.map Flow.toList) (intersect (f :: fs)).toList := by
  have hr : IntersectRounds (f :: fs) (intersect (f :: fs)).events :=
    ends_intersectRounds _ (List.cons_ne_nil f fs) hd (Nat.lt_succ_self _)
  have hfewest (v : Value) : fewest v (f.toList :: fs.map Flow.toList) ≤ occurrences v f.toList :=
    ((fewest_eq_iff (List.cons_ne_nil _ _)).1 rfl).2 _ List.mem_cons_self
  refine ⟨hr, hr.sublist, hr.filter hd, fun v => ?_,
    (hd f List.mem_cons_self).sublist hr.sublist⟩
  have hlen := congrArg List.length (hr.filter hd v)
  rw [← List.countP_eq_length_filter] at hlen
  rw [occurrences, hlen]
  show ((f.toList.filter _).take _).length = _
  rw [List.length_take, ← List.countP_eq_length_filter]
  exact Nat.min_eq_left (hfewest v)

/-- A repeated identifier that is a list, one that only one flow has, and items without one. -/
theorem intersect_sorted_repeated :
    let twice : Item := ⟨[(idField, .list [.int 2]), ("n", .int 1)]⟩
    let f : Flow Item := .ofList [.ofId (.list [.int 2]), twice, twice, .ofId (.int 7), .empty]
    let g : Flow Item := .ofList [twice, .ofId (.list [.int 2]), .ofId (.int 5), .ofId .null]
    (∀ x ∈ [f, g], Descending x.toList) ∧ (intersect [f, g]).toList.Sublist f.toList ∧
      occurrences (.list [.int 2]) (intersect [f, g]).toList = 2 ∧
        occurrences .null (intersect [f, g]).toList = 1 := by
  intro twice f g
  have hd : ∀ x ∈ [f, g], Descending x.toList := by
    intro x hx
    rcases List.mem_cons.1 hx with rfl | hx
    · exact ⟨by decide, by decide⟩
    · rw [List.mem_singleton.1 hx]
      exact ⟨by decide, by decide⟩
  obtain ⟨-, h⟩ := intersect_sorted hd
  exact ⟨hd, h.sublist, h.number (.list [.int 2]), h.number .null⟩

end SetAlgebra

end GraphQuery
