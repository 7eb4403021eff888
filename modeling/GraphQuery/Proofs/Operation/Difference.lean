import GraphQuery.Proofs.Operation.Union
import Mathlib.Data.List.Nodup
/-!
# Subtracting flows

A difference withholds what equals an item of its right operand or one handed out before, whatever
the order (`SetAlgebra.toList_difference`).  It compares items as equality does, while intersections
and unions compare identifiers by the sorting order.  On identifiers without floats and records the
two come to the same (`SetAlgebra.beq_iff_order`), so on flows by strictly descending identifier an
intersection keeps just what a difference withholds, and a union has the identifiers of both
(`SetAlgebra.operations_agree`).
-/

namespace GraphQuery

namespace SetAlgebra

/-! ## What a difference hands out -/

theorem toList_subtractEvents (excluded : List Item) : ∀ (events : List (Event Item))
    (asking : List Nat) (seen : List Item),
      (⟨subtractEvents excluded asking seen events⟩ : Flow Item).toList =
        ((⟨events⟩ : Flow Item).toList.filter fun a =>
          !(excluded.contains a || seen.contains a)).eraseDups
  | [], _, _ => rfl
  | .pull source :: rest, asking, seen => by
    rw [subtractEvents, Flow.toList_mk_pull, Flow.toList_mk_pull,
      toList_subtractEvents excluded rest]
  | .yield a :: rest, asking, seen => by
    rw [subtractEvents, Flow.toList_pulling, Flow.toList_mk_yield, List.filter_cons]
    cases hc : excluded.contains a || seen.contains a with
    | true => exact toList_subtractEvents excluded rest [] seen
    | false =>
      -- what has been handed out is withheld from here on
      show a :: (⟨subtractEvents excluded [] (a :: seen) rest⟩ : Flow Item).toList =
        (a :: (⟨rest⟩ : Flow Item).toList.filter _).eraseDups
      rw [toList_subtractEvents excluded rest, List.eraseDups_cons, List.filter_filter]
      refine congrArg (fun l => a :: List.eraseDups l) (List.filter_congr fun b _ => ?_)
      rw [List.contains_cons, ← Bool.or_assoc, Bool.or_right_comm, Bool.not_or, Bool.and_comm]

/-- **A difference hands out the items that the right operand lacks, each once.** -/
theorem toList_difference (left right : Flow Item) :
    (difference left right).toList =
      (left.toList.filter fun a => !right.toList.contains a).eraseDups := by
  rw [difference, toList_subtractEvents]
  simp only [List.contains_nil, Bool.or_false]

theorem eraseDups_eq_self : ∀ {items : List Item},
    items.Pairwise (fun a b => (b == a) = false) → items.eraseDups = items
  | [], _ => rfl
  | a :: rest, h => by
    obtain ⟨ha, hrest⟩ := List.pairwise_cons.1 h
    rw [List.eraseDups_cons, List.filter_eq_self.2 fun b hb => by rw [ha b hb]; rfl,
      eraseDups_eq_self hrest]

/-! ## Flows by strictly descending identifier -/

/--
Whether items have identifiers, free of floats and records, and come by strictly descending ones.
-/
structure Identified (items : List Item) : Prop where
  hasId : ∀ a ∈ items, a.hasId = true
  plain : ∀ a ∈ items, (key a).isPlain = true
  strict : items.Pairwise fun a b => (key b).order (key a) = .lt

theorem id?_eq_key {a : Item} (h : a.hasId = true) : a.id? = some (key a) := by
  obtain ⟨id, hid⟩ := Option.isSome_iff_exists.1 h
  rw [key, hid]
  rfl

theorem map_id?_eq {items : List Item} (h : ∀ a ∈ items, a.hasId = true) :
    items.map Record.id? = (items.map key).map some := by
  rw [List.map_map]
  exact List.map_congr_left fun a ha => id?_eq_key (h a ha)

theorem beq_iff_key {a b : Item} (ha : a.hasId = true) (hb : b.hasId = true)
    (hp : (key a).isPlain = true) : (a == b) = true ↔ key a = key b := by
  show a.same b = true ↔ _
  rw [sameItem_eq, id?_eq_key ha, id?_eq_key hb]
  exact Value.beq_iff_eq hp

/-- **Items are equal just when the sorting order ties their identifiers.** -/
theorem beq_iff_order {a b : Item} (ha : a.hasId = true) (hb : b.hasId = true)
    (hpa : (key a).isPlain = true) (hpb : (key b).isPlain = true) :
    (a == b) = true ↔ (key a).order (key b) = .eq := by
  rw [beq_iff_key ha hb hpa]
  exact ⟨fun h => h ▸ Value.order_self (key a), Value.eq_of_order hpa hpb⟩

namespace Identified

variable {items : List Item} (h : Identified items)

include h

theorem descending : Descending items :=
  ⟨h.plain, h.strict.imp Ordering.isLE_of_eq_lt⟩

theorem nodup_keys : (items.map key).Nodup := by
  refine List.pairwise_map.2 (h.strict.imp fun {a b} hlt he => ?_)
  rw [he, Value.order_self] at hlt
  cases hlt

theorem nodup : items.Nodup := h.nodup_keys.of_map key

theorem filter_key {a : Item} (ha : a ∈ items) : items.filter (key · == key a) = [a] := by
  refine List.perm_singleton.1 ((List.perm_ext_iff_of_nodup (h.nodup.filter _)
    (List.nodup_singleton a)).2 fun b => ?_)
  rw [List.mem_filter, List.mem_singleton]
  refine ⟨fun ⟨hb, he⟩ => ?_, fun he => he.symm ▸ ⟨ha, Value.same_self (key a)⟩⟩
  exact List.inj_on_of_nodup_map h.nodup_keys hb ha ((Value.beq_iff_eq (h.plain b hb)).1 he)

theorem occurrences_key {a : Item} (ha : a ∈ items) : occurrences (key a) items = 1 := by
  rw [occurrences, List.countP_eq_length_filter, h.filter_key ha]
  rfl

theorem distinct : items.Pairwise fun a b => (b == a) = false := by
  refine h.strict.imp_of_mem fun {a b} ha hb hlt => Bool.eq_false_iff.2 fun he => ?_
  rw [(beq_iff_order (h.hasId b hb) (h.hasId a ha) (h.plain b hb) (h.plain a ha)).1 he] at hlt
  cases hlt

theorem contains_iff {a : Item} (ha : a.hasId = true) (hp : (key a).isPlain = true) :
    items.contains a = true ↔ key a ∈ items.map key := by
  rw [List.contains_iff_exists_mem_beq, List.mem_map]
  refine exists_congr fun b => and_congr_right fun hb => ?_
  rw [beq_iff_key ha (h.hasId b hb) hp]
  exact eq_comm

theorem mem_ids_iff {a : Item} (ha : a.hasId = true) :
    a.id? ∈ items.map Record.id? ↔ key a ∈ items.map key := by
  rw [map_id?_eq h.hasId, id?_eq_key ha]
  exact List.mem_map_of_injective (Option.some_injective Value)

end Identified

theorem mem_union_pair {f g : Flow Item} {a : Item} (h : a ∈ (union [f, g]).toList) :
    a ∈ f.toList ∨ a ∈ g.toList := by
  obtain ⟨x, hx, ha⟩ := mem_union h
  rcases List.mem_cons.1 hx with he | hx
  · exact .inl (he ▸ ha)
  · exact .inr (List.mem_singleton.1 hx ▸ ha)

section

variable {f g : Flow Item} (hf : Identified f.toList) (hg : Identified g.toList)

include hf

theorem toList_difference_of_identified (g : Flow Item) :
    (difference f g).toList = f.toList.filter fun a => !g.toList.contains a := by
  rw [toList_difference]
  exact eraseDups_eq_self (hf.distinct.sublist List.filter_sublist)

include hg

theorem descending_pair : ∀ x ∈ [f, g], Descending x.toList :=
  List.forall_mem_cons.2 ⟨hf.descending, List.forall_mem_singleton.2 hg.descending⟩

theorem fewest_pair {a : Item} (ha : a ∈ f.toList) :
    fewest (key a) [f.toList, g.toList] = if g.toList.contains a then 1 else 0 := by
  have hc := hg.contains_iff (hf.hasId a ha) (hf.plain a ha)
  split
  · rename_i h
    obtain ⟨b, hb, he⟩ := List.mem_map.1 (hc.1 h)
    refine (fewest_eq_iff (List.cons_ne_nil _ _)).2
      ⟨⟨_, List.mem_cons_self, hf.occurrences_key ha⟩, ?_⟩
    refine List.forall_mem_cons.2 ⟨(hf.occurrences_key ha).ge, List.forall_mem_singleton.2 ?_⟩
    exact he ▸ (hg.occurrences_key hb).ge
  · rename_i h
    refine fewest_eq_zero ⟨g.toList, by simp, List.countP_eq_zero.2 fun b hb he => h (hc.2 ?_)⟩
    exact (Value.beq_iff_eq (hg.plain b hb)).1 he ▸ List.mem_map_of_mem hb

/-- **An intersection keeps what a difference withholds.** -/
theorem toList_intersect_of_identified :
    (intersect [f, g]).toList = f.toList.filter g.toList.contains := by
  have hd := descending_pair hf hg
  have hr : IntersectRounds [f, g] (intersect [f, g]).events :=
    ends_intersectRounds _ (List.cons_ne_nil _ _) hd (Nat.lt_succ_self _)
  have hsub : (intersect [f, g]).toList.Sublist f.toList := hr.sublist
  refine (hf.nodup.perm_iff_eq_of_sublist hsub List.filter_sublist).1
    ((List.perm_ext_iff_of_nodup (hf.nodup.sublist hsub) (hf.nodup.filter _)).2 fun a => ?_)
  rw [List.mem_filter]
  -- of the items with the identifier of `a`, there is one to be shared or none
  have hshared : ∀ ha : a ∈ f.toList, (intersect [f, g]).toList.filter (key · == key a) =
      if g.toList.contains a then [a] else [] := fun ha => by
    have hs : (intersect [f, g]).toList.filter (key · == key a) =
        (f.toList.filter (key · == key a)).take (fewest (key a) [f.toList, g.toList]) :=
      hr.filter hd (key a)
    rw [hs, hf.filter_key ha, fewest_pair hf hg ha]
    split <;> rfl
  constructor
  · intro hi
    have ha := hsub.subset hi
    have hm : a ∈ (intersect [f, g]).toList.filter (key · == key a) :=
      List.mem_filter.2 ⟨hi, Value.same_self (key a)⟩
    rw [hshared ha] at hm
    split at hm
    · exact ⟨ha, ‹_›⟩
    · cases hm
  · rintro ⟨ha, hc⟩
    have hm : a ∈ (intersect [f, g]).toList.filter (key · == key a) := by
      rw [hshared ha, if_pos hc]
      exact List.mem_singleton_self a
    exact (List.mem_filter.1 hm).1

theorem hasId_of_mem_union : ∀ a ∈ (union [f, g]).toList, a.hasId = true := fun a ha =>
  (mem_union_pair ha).elim (hf.hasId a) (hg.hasId a)

/-- **A union has the identifiers of its operands, each once.** -/
theorem keys_union : ((union [f, g]).toList.map key).Nodup ∧ ∀ v,
    v ∈ (union [f, g]).toList.map key ↔ v ∈ f.toList.map key ∨ v ∈ g.toList.map key := by
  have hd := descending_pair hf hg
  have hr : UnionRounds none [f, g] (union [f, g]).events :=
    ends_unionRounds _ hd (Nat.lt_succ_self _)
  have hc := hr.continues hd nofun
  have hall : Identified (union [f, g]).toList :=
    ⟨hasId_of_mem_union hf hg, hc.plain, hc.strict⟩
  refine ⟨hall.nodup_keys, fun v => ⟨fun hv => ?_, fun hv => ?_⟩⟩
  · obtain ⟨a, ha, rfl⟩ := List.mem_map.1 hv
    exact (mem_union_pair ha).imp List.mem_map_of_mem List.mem_map_of_mem
  · have hsome : firstWith v [f.toList, g.toList] ≠ none := fun hn => by
      have hnone := firstWith_eq_none.1 hn
      rcases hv with hv | hv
      · obtain ⟨a, ha, rfl⟩ := List.mem_map.1 hv
        exact hnone f.toList (by simp) a ha (Value.same_self (key a))
      · obtain ⟨a, ha, rfl⟩ := List.mem_map.1 hv
        exact hnone g.toList (by simp) a ha (Value.same_self (key a))
    obtain ⟨a, ha⟩ := Option.ne_none_iff_exists'.1 hsome
    have htaken : (union [f, g]).toList.filter (key · == v) = [a] :=
      (hc.taken v nofun).trans (congrArg Option.toList ha)
    obtain ⟨hm, he⟩ := List.mem_filter.1 (htaken ▸ List.mem_singleton_self a)
    exact (Value.beq_iff_eq (hc.plain a hm)).1 he ▸ List.mem_map_of_mem hm

theorem keys_parts : (f.toList.map key ++ (difference g f).toList.map key).Nodup ∧ ∀ v,
    v ∈ f.toList.map key ++ (difference g f).toList.map key ↔
      v ∈ f.toList.map key ∨ v ∈ g.toList.map key := by
  have hmem (b : Item) : b ∈ (difference g f).toList ↔ b ∈ g.toList ∧ key b ∉ f.toList.map key := by
    rw [toList_difference_of_identified hg, List.mem_filter, Bool.not_eq_true', ← Bool.not_eq_true]
    exact and_congr_right fun hb => not_congr (hf.contains_iff (hg.hasId b hb) (hg.plain b hb))
  have hsub : (difference g f).toList.Sublist g.toList := by
    rw [toList_difference_of_identified hg]
    exact List.filter_sublist
  refine ⟨List.nodup_append.2 ⟨hf.nodup_keys, hg.nodup_keys.sublist (hsub.map key), ?_⟩,
    fun v => ?_⟩
  · rintro v hv _ hw rfl
    obtain ⟨b, hb, rfl⟩ := List.mem_map.1 hw
    exact ((hmem b).1 hb).2 hv
  · rw [List.mem_append]
    refine or_congr_right' fun hv => ⟨fun hw => (hsub.map key).subset hw, fun hw => ?_⟩
    obtain ⟨b, hb, rfl⟩ := List.mem_map.1 hw
    exact List.mem_map_of_mem ((hmem b).2 ⟨hb, hv⟩)

/--
**The set operations agree.**  Of two flows by strictly descending identifier, an intersection and a
difference share out the first one, by whether the second has an item's identifier, and a union has
the identifiers of the intersection and of the differences both ways, each once.
-/
theorem operations_agree :
    ((intersect [f, g]).toList ++ (difference f g).toList).Perm f.toList ∧
      (∀ a ∈ f.toList, (a ∈ (intersect [f, g]).toList ↔ a ∉ (difference f g).toList) ∧
        (a ∈ (intersect [f, g]).toList ↔ a.id? ∈ g.toList.map Record.id?)) ∧
        ((union [f, g]).toList.map Record.id?).Nodup ∧
          ((union [f, g]).toList.map Record.id?).Perm
            (((intersect [f, g]).toList ++ (difference f g).toList ++
              (difference g f).toList).map Record.id?) := by
  have hsplit : ((intersect [f, g]).toList ++ (difference f g).toList).Perm f.toList := by
    rw [toList_intersect_of_identified hf hg, toList_difference_of_identified hf]
    exact List.filter_append_perm _ _
  obtain ⟨honce, hunion⟩ := keys_union hf hg
  obtain ⟨hapart, hparts⟩ := keys_parts hf hg
  refine ⟨hsplit, fun a ha => ?_, ?_, ?_⟩
  · rw [toList_intersect_of_identified hf hg, toList_difference_of_identified hf, List.mem_filter,
      List.mem_filter, hg.mem_ids_iff (hf.hasId a ha), ← hg.contains_iff (hf.hasId a ha)
        (hf.plain a ha)]
    simp [ha]
  · rw [map_id?_eq (hasId_of_mem_union hf hg)]
    exact honce.map (Option.some_injective Value)
  · have hall : ∀ a ∈ (intersect [f, g]).toList ++ (difference f g).toList ++
        (difference g f).toList, a.hasId = true :=
      List.forall_mem_append.2 ⟨fun a ha => hf.hasId a (hsplit.subset ha),
        fun a ha => hg.hasId a (mem_difference ha)⟩
    rw [map_id?_eq (hasId_of_mem_union hf hg), map_id?_eq hall]
    have hkeys : ((union [f, g]).toList.map key).Perm
        (f.toList.map key ++ (difference g f).toList.map key) :=
      (List.perm_ext_iff_of_nodup honce hapart).2 fun v => (hunion v).trans (hparts v).symm
    refine (hkeys.trans ?_).map some
    rw [List.map_append]
    exact (hsplit.symm.map key).append_right _

end

/-- Identifiers that are lists, some of them in both flows, with other fields beside them. -/
theorem operations_agree_lists :
    let item (id : Value) (n : Int64) : Item := ⟨[(idField, id), ("n", .int n)]⟩
    let f : Flow Item := .ofList [item (.list [.int 2, .null]) 1, item (.list [.int 2]) 2,
      item (.int 3) 3]
    let g : Flow Item := .ofList [item (.list [.int 2]) 4, item (.string "c") 5]
    Identified f.toList ∧ Identified g.toList ∧
      ((intersect [f, g]).toList ++ (difference f g).toList).Perm f.toList ∧
        item (.list [.int 2]) 2 ∈ (intersect [f, g]).toList := by
  intro item f g
  have hf : Identified f.toList := ⟨by decide, by decide, by decide⟩
  have hg : Identified g.toList := ⟨by decide, by decide, by decide⟩
  obtain ⟨hsplit, hshared, -⟩ := operations_agree hf hg
  refine ⟨hf, hg, hsplit, (hshared _ ?_).2.2 ?_⟩
  · exact List.mem_cons_of_mem _ List.mem_cons_self
  · exact List.mem_cons_self

end SetAlgebra

end GraphQuery
