import GraphQuery.Proofs.Operation.Grouping
import GraphQuery.Proofs.Value.Plain
/-!
# Sorting by several keys

On values without floats and records the sorting order is transitive, so sorting by several keys puts
items in the order of their tuples (`SortKey.InOrder`), keeps the order of those that tie on all keys,
and is the same as sorting by the last key first and by the first key last
(`Transform.orderBy_stable`).
-/

namespace GraphQuery

def Direction.ahead : Direction → Ordering
  | ascending => .lt
  | descending => .gt

namespace SortKey

variable {key : SortKey} {keys : List SortKey} {items : List Item} {a b : Item}

def compareValues (key : SortKey) (a b : Item) : Ordering := (key.valueOf a).order (key.valueOf b)

/-- Whether the tuple of an item comes before that of another one, or is the same. -/
inductive InOrder : List SortKey → Item → Item → Prop where
  | same {a b : Item} : InOrder [] a b
  | ahead {key : SortKey} {rest : List SortKey} {a b : Item}
      (h : key.compareValues a b = key.direction.ahead) : InOrder (key :: rest) a b
  | tied {key : SortKey} {rest : List SortKey} {a b : Item} (h : key.compareValues a b = .eq)
      (next : InOrder rest a b) : InOrder (key :: rest) a b

def tied (keys : List SortKey) (a b : Item) : Bool := keys.all fun key => key.compareValues a b = .eq

theorem order_eq_lt_iff : key.order a b = .lt ↔ key.compareValues a b = key.direction.ahead := by
  rw [order, compareValues]
  cases key.direction with
  | ascending => rfl
  | descending =>
    rw [Value.order_swap (key.valueOf a), Direction.ahead]
    cases (key.valueOf a).order (key.valueOf b) <;> simp

theorem order_eq_eq_iff : key.order a b = .eq ↔ key.compareValues a b = .eq := by
  rw [order, compareValues]
  cases key.direction with
  | ascending => rfl
  | descending => rw [Value.order_swap (key.valueOf a), Ordering.swap_eq_eq]

/-- **Keys compare items by the tuples of their values.** -/
theorem isLE_orderAll_iff : ∀ {keys : List SortKey},
    (orderAll keys a b).isLE = true ↔ InOrder keys a b
  | [] => iff_of_true rfl .same
  | key :: rest => by
    have hahead : InOrder (key :: rest) a b ↔
        key.order a b = .lt ∨ key.order a b = .eq ∧ InOrder rest a b := by
      rw [order_eq_lt_iff, order_eq_eq_iff]
      constructor
      · intro h
        cases h with
        | ahead h => exact .inl h
        | tied h next => exact .inr ⟨h, next⟩
      · rintro (h | ⟨h, next⟩)
        · exact .ahead h
        · exact .tied h next
    rw [hahead, ← isLE_orderAll_iff, orderAll]
    cases key.order a b <;> simp

theorem ties_orderAll : ties (orderAll keys) = tied keys := by
  funext a b
  rw [Bool.eq_iff_iff, ties_iff, orderAll_eq_iff, tied, List.all_eq_true]
  exact forall₂_congr fun key _ => order_eq_eq_iff.trans decide_eq_true_iff.symm

/-! ## Keys one after the other -/

instance (key : SortKey) : Std.OrientedCmp key.order := ⟨key.order_swap _ _⟩

theorem orderAll_cons (key : SortKey) (rest : List SortKey) :
    orderAll (key :: rest) = compareLex key.order (orderAll rest) := by
  funext a b
  rw [orderAll, compareLex]
  cases key.order a b <;> rfl

theorem orderAll_singleton (key : SortKey) : orderAll [key] = key.order := by
  funext a b
  rw [orderAll]
  cases key.order a b <;> rfl

def Plain (keys : List SortKey) (items : List Item) : Prop :=
  ∀ a ∈ items, ∀ key ∈ keys, (key.valueOf a).isPlain = true

theorem transOn_order (h : ∀ a ∈ items, (key.valueOf a).isPlain = true) : TransOn key.order items := by
  intro a ha b hb c hc
  rw [order, order, order]
  cases key.direction with
  | ascending => exact Value.order_trans (h a ha) (h b hb) (h c hc)
  | descending => exact fun hab hbc => Value.order_trans (h c hc) (h b hb) (h a ha) hbc hab

/-- **On plain values several keys compare transitively, and one can sort by them one after the other.** -/
theorem transOn_and_stableSort : ∀ {keys : List SortKey}, Plain keys items →
    TransOn (orderAll keys) items ∧ stableSort (orderAll keys) items =
      keys.foldr (fun key sorted => stableSort key.order sorted) items
  | [], _ => by
    have hall : (stableSort (orderAll []) items).filter (fun _ => true) =
        items.filter fun _ => true := filter_stableSort fun _ _ _ _ _ _ => rfl
    rw [List.filter_true, List.filter_true] at hall
    exact ⟨fun _ _ _ _ _ _ _ _ => rfl, hall⟩
  | key :: rest, h => by
    have hkey : TransOn key.order items := transOn_order fun a ha => h a ha key List.mem_cons_self
    have hrest : Plain rest items := fun a ha k hk => h a ha k (List.mem_cons_of_mem key hk)
    obtain ⟨htrans, hsort⟩ := transOn_and_stableSort hrest
    rw [orderAll_cons, List.foldr_cons, ← hsort]
    exact ⟨hkey.lex htrans, stableSort_compareLex hkey htrans⟩

end SortKey

namespace Transform

open SortKey

theorem toList_orderBy_singletons (keys : List SortKey) (f : Flow Item) :
    (keys.foldr (fun key g => (orderBy [key]).rewrite g) f).toList =
      keys.foldr (fun key sorted => stableSort key.order sorted) f.toList := by
  induction keys with
  | nil => rfl
  | cons key rest ih => rw [List.foldr_cons, toList_orderBy, orderAll_singleton, ih, List.foldr_cons]

/--
**Sorting by several keys is stable and lexicographic.**  If the values that the keys sort by hold
neither floats nor records, where a missing field counts as null, then the items come out in the order
of their tuples, each key in its direction, and those that tie on all keys in the order in which they
came in.  Sorting by one key after the other, the last one first, comes to the same.
-/
theorem orderBy_stable (keys : List SortKey) (f : Flow Item)
    (h : ∀ a ∈ f.toList, ∀ key ∈ keys, (key.valueOf a).isPlain = true) :
    let sorted := ((orderBy keys).rewrite f).toList
    sorted.Perm f.toList ∧
      sorted.Pairwise (InOrder keys) ∧
      (∀ a ∈ f.toList, sorted.filter (tied keys a) = f.toList.filter (tied keys a)) ∧
      sorted = (keys.foldr (fun key g => (orderBy [key]).rewrite g) f).toList := by
  intro sorted
  have hs : sorted = stableSort (orderAll keys) f.toList := toList_orderBy keys f
  obtain ⟨htrans, hsort⟩ := transOn_and_stableSort h
  rw [hs]
  refine ⟨perm_stableSort _ _, ?_, fun a ha => ?_, ?_⟩
  · exact (pairwise_stableSort_of_trans htrans).imp isLE_orderAll_iff.1
  · rw [← ties_orderAll]
    exact htrans.filter_ties ha
  · rw [hsort, toList_orderBy_singletons]

/-- Lists come before numbers and these before what is missing; two items tie on both keys. -/
theorem orderBy_stable_mixed :
    let keys : List SortKey := [⟨"a", .descending⟩, ⟨"b", .ascending⟩]
    let u : Item := ⟨[("a", .int 1), ("b", .string "x"), ("n", .int 1)]⟩
    let v : Item := ⟨[("a", .list [.bool true]), ("n", .int 2)]⟩
    let w : Item := ⟨[("b", .string "x"), ("n", .int 3)]⟩
    let x : Item := ⟨[("a", .int 1), ("b", .string "x"), ("n", .int 4)]⟩
    let y : Item := ⟨[("a", .int 1), ("n", .int 5)]⟩
    let f : Flow Item := .ofList [u, v, w, x, y]
    (∀ a ∈ f.toList, ∀ key ∈ keys, (key.valueOf a).isPlain = true) ∧
      ((orderBy keys).rewrite f).toList = [v, y, u, x, w] ∧
      [v, y, u, x, w].Pairwise (InOrder keys) ∧
      [v, y, u, x, w] = (keys.foldr (fun key g => (orderBy [key]).rewrite g) f).toList := by
  intro keys u v w x y f
  have hplain : ∀ a ∈ f.toList, ∀ key ∈ keys, (key.valueOf a).isPlain = true := by decide
  have hsorted : ((orderBy keys).rewrite f).toList = [v, y, u, x, w] := rfl
  obtain ⟨-, horder, -, hkeys⟩ := orderBy_stable keys f hplain
  rw [hsorted] at horder hkeys
  exact ⟨hplain, hsorted, horder, hkeys⟩

end Transform

end GraphQuery
