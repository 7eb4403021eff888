import GraphQuery.Proofs.Tree.Apart
import GraphQuery.Proofs.Value.Fields
import GraphQuery.Tree.Access
/-!
# Reading after changing

What is read at one path of a tree after something was changed at another one.  At the changed path
the change is seen, paths that lie apart see nothing of it (`Tree.itemAt?_changeItem_apart`), and a
change further down is a change of the item above it (`Tree.changeItem_append`).
-/

namespace GraphQuery

/-! ## Items inside items -/

namespace Item

theorem elements?_eq_some {item : Item} {name : String} {vs : List Value} :
    item.elements? name = some vs ↔ item.writable? name = some (.list vs) := by
  unfold elements?
  split
  · rename_i ws h
    rw [h]
    simp
  · rename_i h
    constructor
    · intro h'
      cases h'
    · intro h'
      exact absurd h' (h vs)

theorem get?_of_elements? {item : Item} {name : String} {vs : List Value}
    (h : item.elements? name = some vs) : item.get? name = some (.list vs) :=
  (Record.writable?_eq_some.1 (elements?_eq_some.1 h)).2

def withElements (item : Item) (name : String) (ws : List Value) : Item :=
  (item.assign? name (.list ws)).getD item

theorem assign?_withElements {item : Item} {name : String} {vs : List Value}
    (h : item.elements? name = some vs) (ws : List Value) :
    item.assign? name (.list ws) = some (item.withElements name ws) := by
  obtain ⟨r, hr⟩ := Record.exists_assign? (elements?_eq_some.1 h) (.list ws)
  rw [withElements, hr]
  rfl

theorem withElements_self {item : Item} {name : String} {vs : List Value}
    (h : item.elements? name = some vs) : item.withElements name vs = item := by
  rw [withElements, Record.assign?_self (elements?_eq_some.1 h)]
  rfl

theorem elements?_withElements {item : Item} {name : String} {vs : List Value}
    (h : item.elements? name = some vs) (ws : List Value) (other : String) :
    (item.withElements name ws).elements? other =
      if other = name then some ws else item.elements? other := by
  have ha := Record.writable?_of_assign? (assign?_withElements h ws) other
  unfold elements?
  rw [ha]
  by_cases ho : other = name
  · simp [ho]
  · simp [ho]

theorem id?_withElements (item : Item) (name : String) (ws : List Value) :
    (item.withElements name ws).id? = item.id? := by
  unfold withElements
  cases h : item.assign? name (.list ws) with
  | none => rfl
  | some r => exact Record.id?_of_assign? h

def child? (item : Item) (name : String) (k : Nat) : Option Item :=
  ((item.elements? name).bind (·[k]?)).bind Value.asRecord?

theorem child?_eq_some {item inner : Item} {name : String} {k : Nat} :
    item.child? name k = some inner ↔
      ∃ vs, item.elements? name = some vs ∧ vs[k]? = some (.record inner) := by
  unfold child?
  cases item.elements? name with
  | none => simp
  | some vs =>
    cases hk : vs[k]? with
    | none => simp [hk]
    | some v => cases v <;> simp [hk, Value.asRecord?]

theorem within?_cons_cons (name : String) (k : Nat) (p : Path) (item : Item) :
    within? (.field name :: .item k :: p) item = (item.child? name k).bind (within? p) := by
  simp only [within?, child?]
  cases (item.elements? name).bind (·[k]?) with
  | none => rfl
  | some v => cases v <;> rfl

theorem changeWithin_cons_cons {item inner : Item} {name : String} {k : Nat} {vs : List Value}
    (hv : item.elements? name = some vs) (hk : vs[k]? = some (.record inner)) (f : Item → Item)
    (p : Path) :
    changeWithin f (.field name :: .item k :: p) item =
      item.withElements name (vs.set k (.record (changeWithin f p inner))) := by
  simp only [changeWithin, hv, hk, withElements]

theorem changeWithin_of_child?_none {item : Item} {name : String} {k : Nat}
    (h : item.child? name k = none) (f : Item → Item) (p : Path) :
    changeWithin f (.field name :: .item k :: p) item = item := by
  simp only [changeWithin]
  unfold child? at h
  split
  · rfl
  · rename_i vs hv
    split
    · rename_i inner hk
      rw [hv, Option.bind_some, hk] at h
      cases h
    · rfl

theorem child?_changeWithin_cons_cons {item inner : Item} {name : String} {k : Nat}
    (h : item.child? name k = some inner) (f : Item → Item) (p : Path) (other : String) (l : Nat) :
    (changeWithin f (.field name :: .item k :: p) item).child? other l =
      if other = name ∧ l = k then some (changeWithin f p inner) else item.child? other l := by
  obtain ⟨vs, hv, hk⟩ := child?_eq_some.1 h
  rw [changeWithin_cons_cons hv hk]
  unfold child?
  rw [elements?_withElements hv]
  by_cases ho : other = name
  · subst ho
    rw [if_pos rfl, hv, Option.bind_some, Option.bind_some, List.getElem?_set]
    by_cases hl : k = l
    · subst hl
      simp [(List.getElem?_eq_some_iff.1 hk).1, Value.asRecord?]
    · simp [hl, Ne.symm hl]
  · simp [ho]

theorem path_induction {motive : Path → Prop} (nil : motive [])
    (step : ∀ name k p, motive p → motive (.field name :: .item k :: p))
    (stray : ∀ p, (∀ item, within? p item = none) → (∀ f item, changeWithin f p item = item) →
      motive p) : ∀ p, motive p
  | [] => nil
  | .field name :: .item k :: p => step name k p (path_induction nil step stray p)
  | .entry _ :: _ | .item _ :: _ | [.field _] | .field _ :: .entry _ :: _
  | .field _ :: .field _ :: _ => stray _ (fun _ => rfl) (fun _ _ => rfl)

theorem within?_append {p : Path} {item inner : Item} (h : within? p item = some inner)
    (r : Path) : within? (p ++ r) item = within? r inner := by
  induction p using path_induction generalizing item with
  | nil => cases h; rfl
  | step name k p ih =>
    rw [within?_cons_cons] at h
    obtain ⟨c, hc, h⟩ := Option.bind_eq_some_iff.1 h
    rw [List.cons_append, List.cons_append, within?_cons_cons, hc, Option.bind_some, ih h]
  | stray p hp => rw [hp] at h; cases h

theorem changeWithin_append {p : Path} {item inner : Item} (h : within? p item = some inner)
    (f : Item → Item) (r : Path) :
    changeWithin f (p ++ r) item = changeWithin (changeWithin f r) p item := by
  induction p using path_induction generalizing item with
  | nil => rfl
  | step name k p ih =>
    rw [within?_cons_cons] at h
    obtain ⟨c, hc, h⟩ := Option.bind_eq_some_iff.1 h
    obtain ⟨vs, hv, hk⟩ := child?_eq_some.1 hc
    rw [List.cons_append, List.cons_append, changeWithin_cons_cons hv hk,
      changeWithin_cons_cons hv hk, ih h]
  | stray p hp => rw [hp] at h; cases h

theorem within?_changeWithin (f : Item → Item) (p : Path) (item : Item) :
    within? p (changeWithin f p item) = (within? p item).map f := by
  induction p using path_induction generalizing item with
  | nil => rfl
  | step name k p ih =>
    rw [within?_cons_cons, within?_cons_cons]
    cases hc : item.child? name k with
    | none =>
      rw [changeWithin_of_child?_none hc, hc]
      rfl
    | some c =>
      rw [child?_changeWithin_cons_cons hc, if_pos ⟨rfl, rfl⟩]
      exact ih c
  | stray p hp hc => rw [hp, hp]; rfl

theorem within?_changeWithin_apart (f : Item → Item) {p q : Path} (h : p.Apart q) (item : Item) :
    within? q (changeWithin f p item) = within? q item := by
  induction p using path_induction generalizing q item with
  | nil => exact absurd h (Path.not_apart_nil q)
  | stray p hp hc => rw [hc]
  | step name k p ih =>
    cases hc : item.child? name k with
    | none => rw [changeWithin_of_child?_none hc]
    | some c =>
      cases q using path_induction with
      | nil => exact absurd h.symm (Path.not_apart_nil _)
      | stray q hq => rw [hq, hq]
      | step other l q =>
        rw [within?_cons_cons, within?_cons_cons, child?_changeWithin_cons_cons hc]
        split
        · rename_i he
          obtain ⟨rfl, rfl⟩ := he
          rw [Path.apart_cons, Path.apart_cons] at h
          rw [hc]
          exact ih (by simpa using h) c
        · rfl

theorem changeWithin_congr {f g : Item → Item} {p : Path} {item inner : Item}
    (h : within? p item = some inner) (hfg : f inner = g inner) :
    changeWithin f p item = changeWithin g p item := by
  induction p using path_induction generalizing item with
  | nil => cases h; exact hfg
  | step name k p ih =>
    rw [within?_cons_cons] at h
    obtain ⟨c, hc, h⟩ := Option.bind_eq_some_iff.1 h
    obtain ⟨vs, hv, hk⟩ := child?_eq_some.1 hc
    rw [changeWithin_cons_cons hv hk, changeWithin_cons_cons hv hk, ih h]
  | stray p hp => rw [hp] at h; cases h

theorem changeWithin_id (p : Path) (item : Item) : changeWithin id p item = item := by
  induction p using path_induction generalizing item with
  | nil => rfl
  | step name k p ih =>
    cases hc : item.child? name k with
    | none => exact changeWithin_of_child?_none hc _ _
    | some c =>
      obtain ⟨vs, hv, hk⟩ := child?_eq_some.1 hc
      obtain ⟨hl, hi⟩ := List.getElem?_eq_some_iff.1 hk
      rw [changeWithin_cons_cons hv hk, ih, ← hi, List.set_getElem_self, withElements_self hv]
  | stray p hp hc => exact hc _ _

theorem within?_cases {p : Path} {item inner : Item} (h : within? p item = some inner) :
    (p = [] ∧ inner = item) ∨ ∃ o name k owner,
      p = o ++ [.field name, .item k] ∧ within? o item = some owner ∧
        owner.child? name k = some inner := by
  induction p using path_induction generalizing item with
  | nil => exact .inl ⟨rfl, by cases h; rfl⟩
  | stray p hp => rw [hp] at h; cases h
  | step name k p ih =>
    rw [within?_cons_cons] at h
    obtain ⟨c, hc, h⟩ := Option.bind_eq_some_iff.1 h
    obtain ⟨rfl, rfl⟩ | ⟨o, name', k', owner, rfl, ho, hi⟩ := ih h
    · exact .inr ⟨[], name, k, item, rfl, rfl, hc⟩
    · exact .inr ⟨.field name :: .item k :: o, name', k', owner, rfl,
        by rw [within?_cons_cons, hc, Option.bind_some, ho], hi⟩

end Item

/-! ## Items of trees -/

namespace Tree

theorem modify_congr {xs : List Item} {j : Nat} {x : Item} (h : xs[j]? = some x)
    {f g : Item → Item} (hfg : f x = g x) : xs.modify j f = xs.modify j g := by
  apply List.ext_getElem?
  intro k
  rw [List.getElem?_modify, List.getElem?_modify]
  by_cases hk : j = k
  · subst hk
    rw [h]
    simp [hfg]
  · simp [hk]

theorem itemAt?_entry (i : Nat) (p : Path) (entries : List (Key × Tree)) :
    itemAt? (.entry i :: p) (map entries) = entries[i]?.bind fun e => itemAt? p e.2 := rfl

theorem itemAt?_item (j : Nat) (p : Path) (s : Seq Item) :
    itemAt? (.item j :: p) (seq s) = s.toList[j]?.bind (Item.within? p) := rfl

theorem changeItem_entry {i : Nat} {entries : List (Key × Tree)} {key : Key} {t : Tree}
    (h : entries[i]? = some (key, t)) (f : Item → Item) (p : Path) :
    changeItem f (.entry i :: p) (map entries) = map (entries.set i (key, changeItem f p t)) := by
  simp only [changeItem, h]

theorem changeItem_entry_none {i : Nat} {entries : List (Key × Tree)} (h : entries[i]? = none)
    (f : Item → Item) (p : Path) :
    changeItem f (.entry i :: p) (map entries) = map entries := by
  simp only [changeItem, h]

theorem changeItem_item (f : Item → Item) (j : Nat) (p : Path) (s : Seq Item) :
    changeItem f (.item j :: p) (seq s) =
      seq (.buffered (s.toList.modify j (Item.changeWithin f p))) := rfl

theorem path_induction {motive : Path → Tree → Prop}
    (entry : ∀ i p entries key t, entries[i]? = some (key, t) → motive p t →
      motive (.entry i :: p) (map entries))
    (item : ∀ j p s, motive (.item j :: p) (seq s))
    (stray : ∀ p t, itemAt? p t = none → (∀ f, changeItem f p t = t) → motive p t) :
    ∀ p t, motive p t
  | .entry i :: p, map entries => by
    cases h : entries[i]? with
    | none =>
      exact stray _ _ (by rw [itemAt?_entry, h]; rfl) (fun f => changeItem_entry_none h f p)
    | some e => exact entry i p entries e.1 e.2 h (path_induction entry item stray p e.2)
  | .item j :: p, seq s => item j p s
  | [], t => stray _ _ (by cases t <;> rfl) (fun f => by cases t <;> rfl)
  | .entry _ :: _, seq _ | .item _ :: _, map _ | .field _ :: _, seq _ | .field _ :: _, map _ =>
    stray _ _ rfl (fun _ => rfl)

theorem getElem?_set_of_some {i : Nat} {entries : List (Key × Tree)} {e : Key × Tree}
    (h : entries[i]? = some e) (e' : Key × Tree) (j : Nat) :
    (entries.set i e')[j]? = if i = j then some e' else entries[j]? := by
  rw [List.getElem?_set]
  split
  · rw [if_pos (List.getElem?_eq_some_iff.1 h).1]
  · rfl

theorem itemAt?_append {p : Path} {t : Tree} {item : Item} (h : t.itemAt? p = some item)
    (r : Path) : t.itemAt? (p ++ r) = item.within? r := by
  induction p, t using path_induction with
  | entry i p entries key t he ih =>
    rw [itemAt?_entry, he, Option.bind_some] at h
    rw [List.cons_append, itemAt?_entry, he, Option.bind_some, ih h]
  | item j p s =>
    rw [itemAt?_item] at h
    obtain ⟨top, hj, h⟩ := Option.bind_eq_some_iff.1 h
    rw [List.cons_append, itemAt?_item, hj, Option.bind_some, Item.within?_append h]
  | stray p t hp => rw [hp] at h; cases h

theorem changeItem_append {p : Path} {t : Tree} {item : Item} (h : t.itemAt? p = some item)
    (f : Item → Item) (r : Path) :
    t.changeItem f (p ++ r) = t.changeItem (Item.changeWithin f r) p := by
  induction p, t using path_induction with
  | entry i p entries key t he ih =>
    rw [itemAt?_entry, he, Option.bind_some] at h
    rw [List.cons_append, changeItem_entry he, changeItem_entry he, ih h]
  | item j p s =>
    rw [itemAt?_item] at h
    obtain ⟨top, hj, h⟩ := Option.bind_eq_some_iff.1 h
    rw [List.cons_append, changeItem_item, changeItem_item,
      modify_congr hj (Item.changeWithin_append h f r)]
  | stray p t hp => rw [hp] at h; cases h

/-- **At its own path a change is seen.** -/
theorem itemAt?_changeItem (f : Item → Item) (p : Path) (t : Tree) :
    (t.changeItem f p).itemAt? p = (t.itemAt? p).map f := by
  induction p, t using path_induction with
  | entry i p entries key t he ih =>
    rw [changeItem_entry he, itemAt?_entry, itemAt?_entry, getElem?_set_of_some he, if_pos rfl, he]
    exact ih
  | item j p s =>
    rw [changeItem_item, itemAt?_item, itemAt?_item, Seq.toList, List.getElem?_modify_eq]
    cases s.toList[j]? with
    | none => rfl
    | some top => exact Item.within?_changeWithin f p top
  | stray p t hp hc => rw [hc, hp]; rfl

theorem itemAt?_set_apart {i : Nat} {p : Path} {entries : List (Key × Tree)} {key : Key}
    {t u : Tree} (he : entries[i]? = some (key, t))
    (hu : ∀ {q : Path}, p.Apart q → u.itemAt? q = t.itemAt? q) :
    ∀ {q : Path}, Path.Apart (.entry i :: p) q →
      (map (entries.set i (key, u))).itemAt? q = (map entries).itemAt? q
  | [], _ | .item _ :: _, _ | .field _ :: _, _ => rfl
  | .entry j :: q, h => by
    rw [itemAt?_entry, itemAt?_entry, getElem?_set_of_some he]
    split
    · rename_i hij
      subst hij
      rw [he]
      exact hu (Path.apart_cons_self.1 h)
    · rfl

/-- **At a path that lies apart a change is not seen.** -/
theorem itemAt?_changeItem_apart (f : Item → Item) {p q : Path} (h : p.Apart q) (t : Tree) :
    (t.changeItem f p).itemAt? q = t.itemAt? q := by
  induction p, t using path_induction generalizing q with
  | stray p t hp hc => rw [hc]
  | entry i p entries key t he ih =>
    rw [changeItem_entry he]
    exact itemAt?_set_apart he ih h
  | item j p s =>
    rw [changeItem_item]
    cases q with
    | nil => rfl
    | cons b q =>
      cases b with
      | entry i => rfl
      | field name => rfl
      | item k =>
        rw [itemAt?_item, itemAt?_item, Seq.toList, List.getElem?_modify]
        by_cases hjk : j = k
        · subst hjk
          have hpq := Path.apart_cons_self.1 h
          cases s.toList[j]? with
          | none => rfl
          | some top => simp [Item.within?_changeWithin_apart f hpq top]
        · cases s.toList[k]? with
          | none => rfl
          | some top => simp [hjk]

theorem itemAt?_changeItem_above (f : Item → Item) {p : Path} {t : Tree} {item : Item}
    (h : t.itemAt? p = some item) (r : Path) :
    (t.changeItem f (p ++ r)).itemAt? p = some (item.changeWithin f r) := by
  rw [changeItem_append h, itemAt?_changeItem, h]
  rfl

theorem itemAt?_changeItem_below (f : Item → Item) {p : Path} {t : Tree} {item : Item}
    (h : t.itemAt? p = some item) (r : Path) :
    (t.changeItem f p).itemAt? (p ++ r) = (f item).within? r := by
  apply itemAt?_append
  rw [itemAt?_changeItem, h]
  rfl

theorem changeItem_congr {f g : Item → Item} {p : Path} {t : Tree} {item : Item}
    (h : t.itemAt? p = some item) (hfg : f item = g item) :
    t.changeItem f p = t.changeItem g p := by
  induction p, t using path_induction with
  | entry i p entries key t he ih =>
    rw [itemAt?_entry, he, Option.bind_some] at h
    rw [changeItem_entry he, changeItem_entry he, ih h]
  | item j p s =>
    rw [itemAt?_item] at h
    obtain ⟨top, hj, h⟩ := Option.bind_eq_some_iff.1 h
    rw [changeItem_item, changeItem_item, modify_congr hj (Item.changeWithin_congr h hfg)]
  | stray p t hp => rw [hp] at h; cases h

end Tree
end GraphQuery
