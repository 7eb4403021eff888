import GraphQuery.Proofs.Tree.Removal
import Mathlib.Data.Nat.PSub
/-!
# Paths after a removal

When something is taken out of a tree, the paths that are held elsewhere are shifted
(`Path.shift?`).  A path is given up exactly if it leads to what was taken out, or below it; every
other one leads to the item that it led to, which lacks the element if it was taken out below
(`Tree.shift?_removeAt`).  At the positions of the two paths the shift compares what stands before
the last step of the removed one and moves one index; no position it asks for is out of range
(`Path.shiftAt?_eq`).
-/

namespace GraphQuery

/-! ## The shift, position by position -/

/-- A step after the step `gone` of the same container was taken out, the subtraction checked. -/
def Step.moveUp? (s gone : Step) : Option Step :=
  match s, gone with
  | .item mine, .item taken => if taken < mine then (Nat.ppred mine).map .item else some s
  | _, _ => some s

theorem Step.moveUp?_eq (s gone : Step) : s.moveUp? gone = some (s.moveUp gone) := by
  cases s with
  | item mine =>
    cases gone with
    | item taken =>
      simp only [moveUp?, moveUp]
      split
      · rename_i h
        rw [Nat.ppred_eq_pred (Nat.zero_lt_of_lt h)]
        rfl
      · rfl
    | _ => rfl
  | _ => rfl

namespace Path

def before? (n : Nat) (p : Path) : Option Path := if n ≤ p.length then some (p.take n) else none

/--
The shift where every position is looked up and every difference is taken with a check; the outer
`none` says that a check failed.
-/
def shiftAt? (removed path : Path) : Option (Option Path) :=
  if removed <+: path then some none
  else if removed.length ≤ path.length then do
    let last ← Nat.ppred removed.length
    let mine ← path.before? last
    let theirs ← removed.before? last
    if mine = theirs then do
      let s ← path[last]?
      let gone ← removed[last]?
      let moved ← s.moveUp? gone
      return some (path.set last moved)
    else return some path
  else some (some path)

theorem before?_append (o p : Path) : before? o.length (o ++ p) = some o := by
  rw [before?, if_pos (by simp), List.take_left]

theorem exists_before? {n : Nat} {p : Path} (h : n ≤ p.length) :
    ∃ o, before? n p = some o ∧ o <+: p := ⟨_, if_pos h, List.take_prefix n p⟩

/-- **No check of the shift ever fails.** -/
theorem shiftAt?_eq (removed path : Path) : shiftAt? removed path = some (shift? removed path) := by
  rcases List.eq_nil_or_concat removed with rfl | ⟨o, g, rfl⟩
  · rw [shift?_nil_left, shiftAt?, if_pos List.nil_prefix]
  rw [List.concat_eq_append]
  -- only a path that passes the container of what was removed can be moved
  by_cases ho : o <+: path
  · obtain ⟨q, rfl⟩ := ho
    rw [shift?_append o (by simp), shiftAt?]
    cases q with
    | nil =>
      have hlen : ¬ (o ++ [g]).length ≤ o.length := by simp
      have hpre : ¬ o ++ [g] <+: o := fun h => hlen h.length_le
      rw [List.append_nil, if_neg hpre, if_neg hlen]
      simp
    | cons s rest =>
      rw [shift?_singleton]
      by_cases hs : s = g
      · simp [hs]
      · simp [hs, Ne.symm hs, before?_append, Step.moveUp?_eq]
  · have hpre : ¬ o ++ [g] <+: path := fun h => ho ((List.prefix_append o [g]).trans h)
    rw [shift?_of_not_passing ho (by simp), shiftAt?, if_neg hpre]
    split
    · rename_i hlen
      obtain ⟨mine, hmine, hpath⟩ := exists_before? (n := o.length) (p := path)
        (by rw [List.length_append] at hlen; omega)
      have hne : mine ≠ o := fun he => ho (he ▸ hpath)
      simp [hmine, before?_append, hne]
    · rfl

end Path

/-! ## Items that lack an element -/

theorem exists_append_of_getElem? {α : Type} {xs : List α} {k : Nat} {x : α}
    (h : xs[k]? = some x) : ∃ us ws, xs = us ++ x :: ws ∧ us.length = k := by
  obtain ⟨hk, rfl⟩ := List.getElem?_eq_some_iff.1 h
  refine ⟨xs.take k, xs.drop (k + 1), ?_, List.length_take_of_le (Nat.le_of_lt hk)⟩
  rw [← List.drop_eq_getElem_cons hk, List.take_append_drop]

namespace Item

/--
Two items of which the second lacks the element `v` at a path of the first, and is the same besides.
A field is found from the front, so that none before it has its name.
-/
inductive Lacking (v : Value) : Path → Item → Item → Prop
  | element {pre post : List (String × Value)} {name : String} (us ws : List Value)
      (h : name ∉ pre.map Prod.fst) :
      Lacking v [.field name, .item us.length] ⟨pre ++ (name, .list (us ++ v :: ws)) :: post⟩
        ⟨pre ++ (name, .list (us ++ ws)) :: post⟩
  | inside {pre post : List (String × Value)} {name : String} {us ws : List Value} {p : Path}
      {inner inner' : Item} (h : name ∉ pre.map Prod.fst) (hinner : Lacking v p inner inner') :
      Lacking v (.field name :: .item us.length :: p)
        ⟨pre ++ (name, .list (us ++ .record inner :: ws)) :: post⟩
        ⟨pre ++ (name, .list (us ++ .record inner' :: ws)) :: post⟩

theorem exists_middle_of_elements? {item : Item} {name : String} {vs : List Value}
    (h : item.elements? name = some vs) : ∃ pre post, name ∉ pre.map Prod.fst ∧
      item = ⟨pre ++ (name, .list vs) :: post⟩ ∧
        ∀ ws, item.withElements name ws = ⟨pre ++ (name, .list ws) :: post⟩ := by
  obtain ⟨hne, hget⟩ := Record.writable?_eq_some.1 (elements?_eq_some.1 h)
  obtain ⟨pre, post, hfields, hpre⟩ := Record.exists_middle_of_lookup hget
  have hws : ∀ ws, item.withElements name ws = ⟨pre ++ (name, .list ws) :: post⟩ := fun ws => by
    rw [withElements, Record.assign?, if_neg hne, hfields, Record.replace?_middle hpre]
    rfl
  exact ⟨pre, post, hpre, (withElements_self h).symm.trans (hws vs), hws⟩

/-- **Taking an element out below an item takes that element away, and nothing else.** -/
theorem lacking_changeWithin {o : Path} {item owner : Item} {name : String} {k : Nat}
    {vs : List Value} {v : Value} (ho : within? o item = some owner)
    (hv : owner.elements? name = some vs) (hk : vs[k]? = some v) :
    Lacking v (o ++ [.field name, .item k]) item
      (changeWithin (Tree.removeElement name k) o item) := by
  induction o using path_induction generalizing item with
  | nil =>
    cases ho
    obtain ⟨us, ws, rfl, rfl⟩ := exists_append_of_getElem? hk
    obtain ⟨pre, post, hpre, hitem, hws⟩ := exists_middle_of_elements? hv
    rw [changeWithin, removeElement_eq hv, hws,
      List.eraseIdx_append_of_length_le (Nat.le_refl _), Nat.sub_self, hitem]
    exact .element us ws hpre
  | step other l o ih =>
    rw [within?_cons_cons] at ho
    obtain ⟨inner, hc, hinner⟩ := Option.bind_eq_some_iff.1 ho
    obtain ⟨ls, hls, hl⟩ := child?_eq_some.1 hc
    obtain ⟨us, ws, rfl, rfl⟩ := exists_append_of_getElem? hl
    obtain ⟨pre, post, hpre, hitem, hws⟩ := exists_middle_of_elements? hls
    rw [changeWithin_cons_cons hls hl, hws, List.set_append_right _ _ (Nat.le_refl _),
      Nat.sub_self, hitem]
    exact .inside hpre (ih hinner)
  | stray o ho' => rw [ho'] at ho; cases ho

end Item

namespace Tree

/--
**Shifted paths follow a removal.**  Something was taken out at `p`, and `q` led to an item.  Its
shift by `p` is given up exactly if `q` begins with `p`.  A path that is kept leads to the same item
unless `p` begins with it, and then to the item that lacks the element which was taken out.  For any
two paths, and so for the empty one, the shift is computed without a failing check.
-/
theorem shift?_removeAt (t : Tree) :
    (∀ p q gone item, (t.removeAt p).item = some gone → t.itemAt? q = some item →
      (Path.shift? p q = none ↔ p <+: q) ∧
      ∀ q', Path.shift? p q = some q' →
        (¬ q <+: p → (t.removeAt p).tree.itemAt? q' = some item) ∧
        ∀ rest, p = q ++ rest → ∃ v item', gone = Item.ofValue v ∧
          item.Lacking v rest item' ∧ (t.removeAt p).tree.itemAt? q' = some item') ∧
      ∀ removed path, Path.shiftAt? removed path = some (Path.shift? removed path) := by
  refine ⟨fun p q gone item hp hq => ⟨Path.shift?_eq_none, fun q' hs =>
    ⟨fun hqp => itemAt?_removeAt hp hq hs hqp, ?_⟩⟩, Path.shiftAt?_eq⟩
  rintro rest rfl
  have hrest : rest ≠ [] := by
    rintro rfl
    rw [List.append_nil, Path.shift?_eq_none.2 (List.prefix_refl q)] at hs
    cases hs
  rw [Path.shift?_append_self q hrest] at hs
  cases hs
  obtain ⟨o, name, k, owner, vs, v, rfl, ho, hv, hk, hgone, h⟩ := itemAt?_removeAt_above hp hq hrest
  exact ⟨v, _, hgone, Item.lacking_changeWithin ho hv hk, h⟩

/-- The first friend is taken out: the second one moves up, and the person has one friend less. -/
theorem shift?_removeAt_friend :
    let bob : Item := ⟨[(":id", .int 2)]⟩
    let carl : Item := ⟨[(":id", .int 3)]⟩
    let ann : Item := ⟨[(":id", .int 1), ("friend", .list [.record bob, .record carl])]⟩
    let t : Tree := ofItems [ann]
    let first : Path := [.entry 0, .item 0, .field "friend", .item 0]
    let second : Path := [.entry 0, .item 0, .field "friend", .item 1]
    (t.removeAt first).item = some bob ∧ t.itemAt? second = some carl ∧
      t.itemAt? [.entry 0, .item 0] = some ann ∧ (t.removeAt first).tree.itemAt? first = some carl ∧
        ∃ v ann', bob = Item.ofValue v ∧ ann.Lacking v [.field "friend", .item 0] ann' ∧
          (t.removeAt first).tree.itemAt? [.entry 0, .item 0] = some ann' := by
  intro bob carl ann t first second
  have hgone : (t.removeAt first).item = some bob := rfl
  have hcarl : t.itemAt? second = some carl := rfl
  have hann : t.itemAt? [.entry 0, .item 0] = some ann := rfl
  have hshift := (shift?_removeAt t).1 first
  exact ⟨hgone, hcarl, hann, ((hshift second bob carl hgone hcarl).2 first rfl).1 (by decide),
    ((hshift [.entry 0, .item 0] bob ann hgone hann).2 _ rfl).2 _ rfl⟩

end Tree

end GraphQuery
