import Mathlib.Logic.Function.Basic
import GraphQuery.Proofs.Tree.Order
import GraphQuery.Proofs.Tree.Removal
/-!
# Other items in the places of leaves

A tree with every leaf replaced or taken out, all at once, and with everything else as it was, in
the same order (`Tree.replaceLeaves`).  Changing one leaf more, by writing to its path or by taking
it out there, is the same replacement with another value for that leaf, provided that the leaves
before it were all kept, so that it still stands at its path (`Tree.put_replaceLeaves`).
-/

namespace GraphQuery

/-! ## Lists -/

section

variable {α β : Type} {f g : Nat → α → Option β}

def keepIndexed (f : Nat → α → Option β) : List α → List β
  | [] => []
  | a :: rest => (f 0 a).toList ++ keepIndexed (fun k => f (k + 1)) rest

def putAt (k : Nat) (b : Option β) (xs : List β) : List β := b.elim (xs.eraseIdx k) (xs.set k)

theorem putAt_zero (b : Option β) (y : β) (ys : List β) : putAt 0 b (y :: ys) = b.toList ++ ys := by
  cases b <;> rfl

theorem putAt_succ (k : Nat) (b : Option β) (y : β) (ys : List β) :
    putAt (k + 1) b (y :: ys) = y :: putAt k b ys := by
  cases b <;> rfl

theorem keepIndexed_of_some {f : Nat → α → Option β} {c : α → β} : ∀ {xs : List α},
    (∀ k a, xs[k]? = some a → f k a = some (c a)) → keepIndexed f xs = xs.map c
  | [], _ => rfl
  | a :: rest, h => by
    rw [keepIndexed, h 0 a rfl, keepIndexed_of_some fun k => h (k + 1)]
    rfl

def KeepsUpTo (f : Nat → α → Option β) (k : Nat) (xs : List α) : Prop :=
  ∀ j ≤ k, ∀ a, xs[j]? = some a → (f j a).isSome = true

theorem KeepsUpTo.tail {k : Nat} {x : α} {xs : List α} (h : KeepsUpTo f (k + 1) (x :: xs)) :
    KeepsUpTo (fun j => f (j + 1)) k xs := fun j hj => h (j + 1) (Nat.succ_le_succ hj)

theorem getElem?_keepIndexed {f : Nat → α → Option β} {a : α} : ∀ {k : Nat} {xs : List α},
    xs[k]? = some a → KeepsUpTo f k xs → (keepIndexed f xs)[k]? = f k a
  | _, [], h, _ => by cases h
  | k, x :: rest, h, hk => by
    obtain ⟨y, hy⟩ := Option.isSome_iff_exists.1 (hk 0 (Nat.zero_le k) x rfl)
    rw [keepIndexed, hy]
    cases k with
    | zero =>
      cases h
      exact hy.symm
    | succ k => exact getElem?_keepIndexed (f := fun k => f (k + 1)) h hk.tail

theorem putAt_keepIndexed {f g : Nat → α → Option β} {a : α} : ∀ {k : Nat} {xs : List α},
    xs[k]? = some a → KeepsUpTo f k xs → (∀ j, j ≠ k → g j = f j) →
      putAt k (g k a) (keepIndexed f xs) = keepIndexed g xs
  | _, [], h, _, _ => by cases h
  | k, x :: rest, h, hk, hg => by
    obtain ⟨y, hy⟩ := Option.isSome_iff_exists.1 (hk 0 (Nat.zero_le k) x rfl)
    rw [keepIndexed, keepIndexed, hy]
    cases k with
    | zero =>
      cases h
      rw [funext fun j => hg (j + 1) (Nat.succ_ne_zero j)]
      exact putAt_zero _ _ _
    | succ k =>
      have hrest : rest[k]? = some a := h
      rw [hg 0 (Nat.succ_ne_zero k).symm, hy, ← putAt_keepIndexed hrest hk.tail
        fun j hj => hg (j + 1) fun he => hj (Nat.succ_inj.1 he)]
      exact putAt_succ _ _ _ _

end

/-! ## Replacing -/

mutual

/-- What becomes of an element of a list: a record that is a leaf is replaced or taken out. -/
def Value.replaceAt (f : Path → Option Item) : Value → Option Value
  | .record ⟨fields⟩ =>
    if Item.isLeaf ⟨fields⟩ then (f []).map .record else some (.record ⟨replaceInFields f fields⟩)
  | v => some v
termination_by structural v => v

def Value.replaceBelow (f : Path → Option Item) : Value → Value
  | .list vs =>
    if (Value.list vs).nestsItems then .list (replaceInElements (fun k p => f (.item k :: p)) vs)
    else .list vs
  | v => v
termination_by structural v => v

def replaceInFields (f : Path → Option Item) : List (String × Value) → List (String × Value)
  | [] => []
  | (name, v) :: rest =>
    (name, v.replaceBelow fun p => f (.field name :: p)) :: replaceInFields f rest
termination_by structural fields => fields

def replaceInElements (f : Nat → Path → Option Item) : List Value → List Value
  | [] => []
  | v :: rest => (v.replaceAt (f 0)).toList ++ replaceInElements (fun k => f (k + 1)) rest
termination_by structural vs => vs

end

def Item.replaceBelow (f : Path → Option Item) (item : Item) : Item :=
  ⟨replaceInFields f item.fields⟩

def Item.replaceAt (f : Path → Option Item) (item : Item) : Option Item :=
  if item.isLeaf then f [] else some (item.replaceBelow f)

namespace Tree

mutual

/--
A tree with other items in the places of its leaves, given by their paths, and without the leaves
for which there is none.
-/
def replaceLeaves (f : Path → Option Item) : Tree → Tree
  | seq s => seq (.buffered (keepIndexed (fun k item => item.replaceAt fun p => f (.item k :: p))
      s.toList))
  | map entries => map (replaceInEntries (fun k p => f (.entry k :: p)) entries)
termination_by structural t => t

def replaceInEntries (f : Nat → Path → Option Item) : List (Key × Tree) → List (Key × Tree)
  | [] => []
  | (key, t) :: rest => (key, t.replaceLeaves (f 0)) :: replaceInEntries (fun k => f (k + 1)) rest
termination_by structural entries => entries

end

end Tree

/-! ## As lists -/

theorem replaceInFields_eq (f : Path → Option Item) : ∀ fields : List (String × Value),
    replaceInFields f fields =
      fields.map fun e => (e.1, e.2.replaceBelow fun p => f (.field e.1 :: p))
  | [] => rfl
  | (name, v) :: rest => by rw [replaceInFields, replaceInFields_eq f rest, List.map_cons]

theorem replaceInElements_eq (f : Nat → Path → Option Item) (vs : List Value) :
    replaceInElements f vs = keepIndexed (fun k v => v.replaceAt (f k)) vs := by
  induction vs generalizing f with
  | nil => rfl
  | cons v rest ih => rw [replaceInElements, keepIndexed, ih]

theorem Tree.replaceInEntries_eq (f : Nat → Path → Option Item) (entries : List (Key × Tree)) :
    replaceInEntries f entries =
      keepIndexed (fun k e => some (e.1, e.2.replaceLeaves (f k))) entries := by
  induction entries generalizing f with
  | nil => rfl
  | cons e rest ih =>
    rw [replaceInEntries, keepIndexed, ih]
    rfl

theorem Value.replaceAt_record (f : Path → Option Item) (item : Item) :
    (Value.record item).replaceAt f = (item.replaceAt f).map .record := by
  obtain ⟨fields⟩ := item
  rw [replaceAt, Item.replaceAt]
  split <;> rfl

/-! ## Every leaf in its own place -/

theorem Value.replaceBelow_self {f : Path → Option Item} {v : Value}
    (h : ∀ vs, v = .list vs → v.nestsItems = true → ∀ (k : Nat) (inner : Item),
      vs[k]? = some (.record inner) → inner.replaceAt (fun p => f (.item k :: p)) = some inner) :
    v.replaceBelow f = v := by
  cases v with
  | list vs =>
    rw [replaceBelow]
    split
    · rename_i hn
      have hself : keepIndexed (fun k v => v.replaceAt fun p => f (.item k :: p)) vs = vs.map id :=
        keepIndexed_of_some fun k v hk => by
          cases v with
          | record inner =>
            rw [replaceAt_record, h vs rfl hn k inner hk]
            rfl
          | _ => rfl
      rw [replaceInElements_eq, hself, List.map_id]
    · rfl
  | _ => rfl

theorem Item.replaceAt_self {item : Item} {f : Path → Option Item}
    (h : ∀ leaf ∈ item.leaves, f leaf.path = some leaf.item) : item.replaceAt f = some item := by
  induction item using item_induction generalizing f with
  | step item ih =>
    rw [leaves_eq] at h
    rw [replaceAt]
    split
    · rename_i hl
      rw [if_pos hl] at h
      exact h _ (List.mem_singleton_self _)
    · rename_i hl
      rw [if_neg hl] at h
      have hfields : replaceInFields f item.fields = item.fields := by
        have hself : ∀ e ∈ item.fields,
            (e.1, e.2.replaceBelow fun p => f (.field e.1 :: p)) = id e := fun e he => by
          obtain ⟨name, v⟩ := e
          refine Prod.ext rfl (Value.replaceBelow_self fun vs hv hn k inner hk => ?_)
          dsimp only at hv
          subst hv
          exact ih name vs inner he (List.mem_of_getElem? hk) fun leaf hl =>
            h ⟨.field name :: .item k :: leaf.path, leaf.item⟩
              (mem_leavesOfFields_iff.2 ⟨name, vs, k, inner, leaf, he, hn, hk, hl, rfl⟩)
        rw [replaceInFields_eq, List.map_congr_left hself, List.map_id]
      rw [replaceBelow, hfields]

/-- **A tree with every leaf in its own place is the tree, buffered.** -/
theorem Tree.replaceLeaves_self {t : Tree} {f : Path → Option Item}
    (h : ∀ leaf ∈ t.leaves, f leaf.path = some leaf.item) : t.replaceLeaves f = t.force := by
  induction t using tree_induction generalizing f with
  | seq s =>
    rw [leaves_seq] at h
    have hself : keepIndexed (fun k item => item.replaceAt fun p => f (.item k :: p)) s.toList =
        s.toList.map id := keepIndexed_of_some fun k item hk => Item.replaceAt_self fun leaf hl =>
      h (leaf.under (.item k)) (mem_indexedLeaves.2 ⟨k, item, leaf, hk, hl, by rw [Nat.zero_add]⟩)
    rw [replaceLeaves, hself, List.map_id]
    rfl
  | map entries ih =>
    rw [leaves_map] at h
    rw [replaceLeaves, replaceInEntries_eq, force_map]
    refine congrArg map (keepIndexed_of_some fun k e hk => ?_)
    rw [ih e (List.mem_of_getElem? hk) fun leaf hl => h (leaf.under (.entry k))
      (mem_indexedLeaves.2 ⟨k, e, leaf, hk, hl, by rw [Nat.zero_add]⟩)]

/-! ## The leaves that are kept -/

def KeptThrough (f : Path → Option Item) (leaves : List Leaf) (p : Path) : Prop :=
  ∀ leaf ∈ leaves, (leaf.path.order p).isLE = true → (f leaf.path).isSome = true

theorem KeptThrough.under {f : Path → Option Item} {leaves leaves' : List Leaf} {s : Step}
    {p : Path} (h : KeptThrough f leaves (s :: p))
    (hl : ∀ leaf ∈ leaves', leaf.under s ∈ leaves) :
    KeptThrough (fun q => f (s :: q)) leaves' p := fun leaf hm ho =>
  h (leaf.under s) (hl leaf hm) (by rwa [Leaf.under, Path.order_cons_self])

theorem KeptThrough.self {f : Path → Option Item} {leaves : List Leaf} {leaf : Leaf}
    (h : KeptThrough f leaves leaf.path) (hm : leaf ∈ leaves) : (f leaf.path).isSome = true :=
  h leaf hm (by rw [Path.order_self]; rfl)

/-! ## One leaf more -/

section

variable {α β : Type} {below : α → List Leaf} {c : (Path → Option Item) → α → Option β}
  {s : Nat → Step} {xs : List α} {a : α} {j : Nat} {f : Path → Option Item} {p : Path}

theorem under_mem_indexedLeaves (hj : xs[j]? = some a) {leaf : Leaf} (hl : leaf ∈ below a) :
    leaf.under (s j) ∈ indexedLeaves s below 0 xs :=
  mem_indexedLeaves.2 ⟨j, a, leaf, hj, hl, by rw [Nat.zero_add]⟩

theorem keepsUpTo_of_keptThrough
    (hc : ∀ a f, (∀ leaf ∈ below a, leaf.path = [] → (f []).isSome = true) → (c f a).isSome = true)
    (hk : KeptThrough f (indexedLeaves .item below 0 xs) (.item j :: p)) :
    KeepsUpTo (fun k a => c (fun q => f (.item k :: q)) a) j xs := by
  intro i hi b hb
  refine hc b _ fun leaf hl hnil => ?_
  have hkept := hk (leaf.under (.item i)) (under_mem_indexedLeaves hb hl)
  rw [Leaf.under, hnil] at hkept
  exact hkept (Path.isLE_order_item hi p)

theorem update_under (f : Path → Option Item) (s : Step) (p : Path) (r : Option Item) :
    (fun q => Function.update f (s :: p) r (s :: q)) =
      Function.update (fun q => f (s :: q)) p r := by
  funext q
  by_cases h : q = p
  · subst h
    rw [Function.update_self, Function.update_self]
  · rw [Function.update_of_ne fun he => h (List.cons.inj he).2, Function.update_of_ne h]

theorem update_apart (f : Path → Option Item) {s s' : Step} (h : s' ≠ s) (p : Path)
    (r : Option Item) :
    (fun q => Function.update f (s :: p) r (s' :: q)) = fun q => f (s' :: q) := by
  funext q
  rw [Function.update_of_ne fun he => h (List.cons.inj he).1]

theorem putAt_update (hs : ∀ i j, s i = s j → i = j) (hj : xs[j]? = some a)
    (hk : KeepsUpTo (fun k a => c (fun q => f (s k :: q)) a) j xs) (p : Path) (r : Option Item) :
    putAt j (c (Function.update (fun q => f (s j :: q)) p r) a)
        (keepIndexed (fun k a => c (fun q => f (s k :: q)) a) xs) =
      keepIndexed (fun k a => c (fun q => Function.update f (s j :: p) r (s k :: q)) a) xs := by
  have hput := putAt_keepIndexed
    (g := fun k a => c (fun q => Function.update f (s j :: p) r (s k :: q)) a) hj hk fun i hi => by
      rw [update_apart f fun he => hi (hs _ _ he)]
  rw [← hput, update_under]

end

namespace Item

variable {item inner : Item} {name : String} {k : Nat} {vs : List Value}

def put (r : Option Item) (o : Path) (name : String) (k : Nat) (item : Item) : Item :=
  match r with
  | some r => changeWithin (fun _ => r) (o ++ [.field name, .item k]) item
  | none => changeWithin (Tree.removeElement name k) o item

theorem put_nil (hv : item.elements? name = some vs) (hk : vs[k]? = some (.record inner))
    (r : Option Item) :
    item.put r [] name k = item.withElements name (putAt k (r.map .record) vs) := by
  cases r with
  | some r => exact changeWithin_cons_cons hv hk _ []
  | none => exact removeElement_eq hv k

theorem put_cons {n : String} {j : Nat} (hv : item.elements? n = some vs)
    (hj : vs[j]? = some (.record inner)) (r : Option Item) (o : Path) :
    item.put r (.field n :: .item j :: o) name k =
      item.withElements n (putAt j (some (.record (inner.put r o name k))) vs) := by
  cases r with
  | some r => exact changeWithin_cons_cons hv hj _ _
  | none => exact changeWithin_cons_cons hv hj _ _

theorem path_of_mem_leaves {leaf : Leaf} (h : item.everywhere isAddressable fun _ => true)
    (hm : leaf ∈ item.leaves) :
    (item.isLeaf = true ∧ leaf.path = []) ∨
      (item.isLeaf = false ∧ ∃ o name k, leaf.path = o ++ [.field name, .item k]) := by
  cases hl : item.isLeaf with
  | true =>
    rw [leaves_of_isLeaf hl, List.mem_singleton] at hm
    exact .inl ⟨rfl, by rw [hm]⟩
  | false =>
    refine .inr ⟨rfl, ?_⟩
    obtain ⟨hp, -⟩ | ⟨o, name, k, owner, hp, -, -⟩ :=
      within?_cases (within?_of_mem_leaves (everywhere_isOpen h) hm)
    · rw [leaves_eq, if_neg (by simp [hl])] at hm
      obtain ⟨name, vs, k, inner, l', -, -, -, -, rfl⟩ := mem_leavesOfFields_iff.1 hm
      cases hp
    · exact ⟨o, name, k, hp⟩

theorem isSome_replaceAt (item : Item) (f : Path → Option Item)
    (h : ∀ leaf ∈ item.leaves, leaf.path = [] → (f []).isSome = true) :
    (item.replaceAt f).isSome = true := by
  rw [replaceAt]
  split
  · rename_i hl
    refine h ⟨[], item⟩ ?_ rfl
    rw [leaves_of_isLeaf hl]
    exact List.mem_singleton_self _
  · rfl

end Item

theorem Value.isSome_replaceAt (v : Value) (f : Path → Option Item)
    (h : ∀ leaf ∈ v.leavesAt, leaf.path = [] → (f []).isSome = true) :
    (v.replaceAt f).isSome = true := by
  cases v with
  | record inner =>
    rw [replaceAt_record, Option.isSome_map]
    exact Item.isSome_replaceAt inner f h
  | _ => rfl

namespace Item

variable {item inner : Item} {name : String} {k : Nat} {vs : List Value}

theorem names_replaceBelow (f : Path → Option Item) (item : Item) :
    (item.replaceBelow f).names = item.names := by
  show (replaceInFields f item.fields).map Prod.fst = item.fields.map Prod.fst
  rw [replaceInFields_eq, List.map_map]
  rfl

theorem elements?_replaceBelow (h : item.isAddressable = true)
    (hf : (name, Value.list vs) ∈ item.fields) (hn : (Value.list vs).nestsItems = true)
    (f : Path → Option Item) : (item.replaceBelow f).elements? name =
      some (keepIndexed (fun k v => v.replaceAt fun p => f (.field name :: .item k :: p)) vs) := by
  obtain ⟨hne, -⟩ := isOpen_iff.1 (isOpen_of_isAddressable h) _ hf hn
  simp only [isAddressable, Bool.and_eq_true, decide_eq_true_eq] at h
  refine elements?_eq_some.2 (Record.writable?_eq_some.2 ⟨hne, Record.lookup_of_mem ?_ ?_⟩)
  · show (item.replaceBelow f).names.Nodup
    rw [names_replaceBelow]
    exact h.1
  · rw [replaceBelow, replaceInFields_eq]
    refine List.mem_map.2 ⟨_, hf, Prod.ext rfl ?_⟩
    dsimp only
    rw [Value.replaceBelow, if_pos hn, replaceInElements_eq]

theorem replace?_map {c d : String → Value → Value} {v w : Value} :
    ∀ {fields : List (String × Value)}, (fields.map Prod.fst).Nodup → (name, v) ∈ fields →
      d name v = w → (∀ n, n ≠ name → d n = c n) →
      Record.replace? name w (fields.map fun e => (e.1, c e.1 e.2)) =
        some (fields.map fun e => (e.1, d e.1 e.2))
  | [], _, h, _, _ => by cases h
  | (n, u) :: rest, hn, h, hd, hc => by
    obtain ⟨hnew, hrest⟩ := List.nodup_cons.1 hn
    rw [List.map_cons, Record.replace?]
    rcases List.mem_cons.1 h with he | h
    · cases he
      have hsame : ∀ e ∈ rest, (e.1, c e.1 e.2) = (e.1, d e.1 e.2) := fun e he => by
        rw [hc e.1 fun heq => hnew (List.mem_map.2 ⟨e, he, heq⟩)]
      rw [if_pos rfl, List.map_congr_left hsame, List.map_cons, hd]
    · have hne : n ≠ name := fun he => hnew (List.mem_map.2 ⟨_, h, he.symm⟩)
      rw [if_neg hne, replace?_map hrest h hd hc, List.map_cons, hc n hne]
      rfl

theorem withElements_replaceBelow (h : item.isAddressable = true)
    (hf : (name, Value.list vs) ∈ item.fields) (hn : (Value.list vs).nestsItems = true)
    (f : Path → Option Item) (p : Path) (r : Option Item) :
    (item.replaceBelow f).withElements name (keepIndexed (fun k v => v.replaceAt fun q =>
        Function.update (fun q => f (.field name :: q)) p r (.item k :: q)) vs) =
      item.replaceBelow (Function.update f (.field name :: p) r) := by
  obtain ⟨hne, -⟩ := isOpen_iff.1 (isOpen_of_isAddressable h) _ hf hn
  simp only [isAddressable, Bool.and_eq_true, decide_eq_true_eq] at h
  have hput := replace?_map (c := fun n v => v.replaceBelow fun q => f (.field n :: q))
    (d := fun n v => v.replaceBelow fun q => Function.update f (.field name :: p) r (.field n :: q))
    h.1 hf rfl fun n hn => by
      funext v
      rw [update_apart f fun he => hn (Step.field.inj he)]
  rw [update_under, Value.replaceBelow, if_pos hn, replaceInElements_eq] at hput
  rw [withElements, Record.assign?, if_neg hne, replaceBelow, replaceInFields_eq, hput,
    replaceBelow, replaceInFields_eq]
  rfl

/-- **Putting one leaf more into an item with replaced leaves.** -/
theorem put_replaceBelow (h : item.everywhere isAddressable (fun _ => true) = true) {leaf : Leaf}
    (hm : leaf ∈ item.leaves) {o : Path} (hp : leaf.path = o ++ [.field name, .item k])
    {f : Path → Option Item} (hf : KeptThrough f item.leaves leaf.path) (r : Option Item) :
    (item.replaceBelow f).put r o name k =
      item.replaceBelow (Function.update f leaf.path r) := by
  induction item using item_induction generalizing leaf o f with
  | step item ih =>
    have hl : item.isLeaf = false := by
      rcases path_of_mem_leaves h hm with ⟨-, hnil⟩ | ⟨hl, -⟩
      · rw [hnil] at hp
        simp at hp
      · exact hl
    have hkept := hf.self hm
    rw [leaves_eq, if_neg (by simp [hl])] at hm hf
    obtain ⟨n, vs, j, inner, l', hmem, hn, hj, hl', rfl⟩ := mem_leavesOfFields_iff.1 hm
    have haddr := (everywhere_iff.1 h).1
    have hinner : inner.everywhere isAddressable (fun _ => true) = true :=
      (Value.everywhere_list.1 ((everywhere_iff.1 h).2 _ hmem)).2 _ (List.mem_of_getElem? hj)
    have hunder : KeptThrough (fun q => f (.field n :: q))
        (indexedLeaves .item Value.leavesAt 0 vs) (.item j :: l'.path) :=
      hf.under fun leaf hm => mem_leavesOfFields.2 ⟨_, hmem, leaf,
        mem_leavesBelow.2 ⟨vs, rfl, hn, by rwa [leavesOfElements_eq]⟩, rfl⟩
    have hkeep := keepsUpTo_of_keptThrough Value.isSome_replaceAt hunder
    -- the leaves before this one are kept, so what stands at its position is its own element
    have hel := elements?_replaceBelow haddr hmem hn f
    have hat := getElem?_keepIndexed hj hkeep
    have hput := putAt_update (c := Value.replaceAt) (s := .item) (f := fun q => f (.field n :: q))
      (fun _ _ he => by injection he) hj hkeep l'.path r
    rw [← withElements_replaceBelow haddr hmem hn, ← hput, Value.replaceAt_record, replaceAt]
    rw [Value.replaceAt_record, replaceAt] at hat
    rcases path_of_mem_leaves hinner hl' with ⟨hi, hnil⟩ | ⟨hi, o', name', k', ho'⟩
    · -- the element is the leaf itself
      have hend : ([] : Path) ++ [.field n, .item j] = o ++ [.field name, .item k] := by
        rw [← hp, hnil]
        rfl
      cases List.append_inj_left' hend rfl
      cases List.append_inj_right' hend rfl
      rw [if_pos hi] at hat ⊢
      rw [hnil] at hkept ⊢
      obtain ⟨x, hx⟩ := Option.isSome_iff_exists.1 hkept
      rw [hx] at hat
      rw [put_nil hel hat, Function.update_self]
    · -- the leaf is further down
      have hend : (.field n :: .item j :: o' : Path) ++ [.field name', .item k'] =
          o ++ [.field name, .item k] := by
        rw [← hp, ho']
        rfl
      cases List.append_inj_right' hend rfl
      cases List.append_inj_left' hend rfl
      rw [if_neg (by simp [hi])] at hat ⊢
      rw [put_cons hel hat, ih n vs inner hmem (List.mem_of_getElem? hj) hinner hl' ho'
        (hunder.under fun leaf hm => under_mem_indexedLeaves hj hm)]
      rfl

end Item

namespace Tree

def put (p : Path) (r : Option Item) (t : Tree) : Tree :=
  match r with
  | some r => t.changeItem (fun _ => r) p
  | none => (t.removeAt p).tree

variable {t : Tree} {p : Path}

theorem put_entry {i : Nat} {entries : List (Key × Tree)} {key : Key}
    (he : entries[i]? = some (key, t)) (o : Path) (k : Nat) (r : Option Item) :
    (map entries).put (.entry i :: (o ++ [.item k])) r =
      map (putAt i (some (key, t.put (o ++ [.item k]) r)) entries) := by
  cases r with
  | some r => exact changeItem_entry he _ _
  | none =>
    rw [put, put, ← List.cons_append]
    -- taking out depends on the owner: a field of an item, or a sequence
    by_cases ho : ∃ name, o.getLast? = some (.field name)
    · obtain ⟨name, ho⟩ := ho
      obtain ⟨o', rfl⟩ := List.getLast?_eq_some_iff.1 ho
      rw [← List.cons_append, List.append_assoc, List.append_assoc, List.singleton_append,
        tree_removeAt_field, tree_removeAt_field, changeItem_entry he]
      rfl
    · have hlast : ∀ name, o.getLast? ≠ some (.field name) := fun name h => ho ⟨name, h⟩
      have hlast' : ∀ name, (.entry i :: o : Path).getLast? ≠ some (.field name) := fun name => by
        cases o with
        | nil => simp
        | cons s o =>
          rw [List.getLast?_cons_cons]
          exact hlast name
      rw [tree_removeAt_item hlast', tree_removeAt_item hlast, changeSeq, changeSubtree_entry he]
      rfl

theorem put_item (s : Seq Item) (j : Nat) (r : Option Item) :
    (seq s).put [.item j] r = seq (.buffered (putAt j r s.toList)) := by
  cases r with
  | some r =>
    rw [put, changeItem_item, List.modify_eq_set]
    rfl
  | none => rfl

theorem put_within {s : Seq Item} {j : Nat} {top : Item} (hj : s.toList[j]? = some top) (o : Path)
    (name : String) (k : Nat) (r : Option Item) :
    (seq s).put (.item j :: (o ++ [.field name, .item k])) r =
      seq (.buffered (putAt j (some (top.put r o name k)) s.toList)) := by
  have hmodify : ∀ c : Item → Item, s.toList.modify j c = s.toList.set j (c top) := fun c => by
    rw [List.modify_eq_set, hj]
    rfl
  cases r with
  | some r =>
    rw [put, changeItem_item, hmodify]
    rfl
  | none =>
    rw [put, ← List.cons_append, tree_removeAt_field, changeItem_item, hmodify]
    rfl

theorem path_of_mem_leaves (h : t.Everywhere Item.isAddressable fun _ => true) {leaf : Leaf}
    (hm : leaf ∈ t.leaves) : ∃ o k, leaf.path = o ++ [.item k] := by
  obtain ⟨o, k, -, hp, -⟩ | ⟨o, name, k, -, hp, -⟩ := itemAt?_cases (itemAt?_of_mem_leaves h hm)
  · exact ⟨o, k, hp⟩
  · exact ⟨o ++ [.field name], k, by rw [hp, List.append_assoc]; rfl⟩

/-- **Putting one leaf more into a tree with replaced leaves.** -/
theorem put_replaceLeaves (h : t.Everywhere Item.isAddressable fun _ => true) {leaf : Leaf}
    (hm : leaf ∈ t.leaves) {f : Path → Option Item} (hf : KeptThrough f t.leaves leaf.path)
    (r : Option Item) :
    (t.replaceLeaves f).put leaf.path r = t.replaceLeaves (Function.update f leaf.path r) := by
  induction t using tree_induction generalizing leaf f with
  | seq s =>
    have hkept := hf.self hm
    rw [leaves_seq] at hm hf
    obtain ⟨j, item, l', hj, hl', rfl⟩ := mem_indexedLeaves.1 hm
    rw [Nat.zero_add] at hf hkept ⊢
    have hitem := everywhere_seq.1 h item (List.mem_of_getElem? hj)
    have hkeep := keepsUpTo_of_keptThrough Item.isSome_replaceAt hf
    have hat := getElem?_keepIndexed hj hkeep
    have hput := putAt_update (s := .item) (fun _ _ he => by injection he) hj hkeep l'.path r
    rw [Leaf.under] at hkept ⊢
    rw [replaceLeaves, replaceLeaves, ← hput, Item.replaceAt]
    rw [Item.replaceAt] at hat
    rcases Item.path_of_mem_leaves hitem hl' with ⟨hi, hnil⟩ | ⟨hi, o, name, k, ho⟩
    · rw [if_pos hi, hnil, put_item, Function.update_self]
      rfl
    · rw [if_neg (by simp [hi])] at hat ⊢
      rw [ho, put_within hat, ← ho, Item.put_replaceBelow hitem hl' ho
        (hf.under fun leaf hm => under_mem_indexedLeaves hj hm)]
      rfl
  | map entries ih =>
    rw [leaves_map] at hm hf
    obtain ⟨i, ⟨key, t⟩, l', hi, hl', rfl⟩ := mem_indexedLeaves.1 hm
    rw [Nat.zero_add] at hf ⊢
    have ht := everywhere_map.1 h _ (List.mem_of_getElem? hi)
    obtain ⟨o, k, hp⟩ := path_of_mem_leaves ht hl'
    have hkeep : KeepsUpTo (fun k e =>
        some (e.1, replaceLeaves (fun q => f (.entry k :: q)) e.2)) i entries := fun _ _ _ _ => rfl
    have hat := getElem?_keepIndexed hi hkeep
    have hput := putAt_update (s := .entry)
      (c := fun f (e : Key × Tree) => some (e.1, e.2.replaceLeaves f))
      (fun _ _ he => by injection he) hi hkeep l'.path r
    rw [Leaf.under, replaceLeaves, replaceLeaves, replaceInEntries_eq, replaceInEntries_eq, ← hput,
      hp, put_entry hat, ← hp, ih _ (List.mem_of_getElem? hi) ht hl'
        (hf.under fun leaf hm => under_mem_indexedLeaves hi hm)]

end Tree

end GraphQuery
