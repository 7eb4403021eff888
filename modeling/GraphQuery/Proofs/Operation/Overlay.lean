import GraphQuery.Proofs.Value.Regular
import Mathlib.Data.List.Nodup
/-!
# Laying entries over others

Records and mappings are merged alike: the entries of the one are put into the other in order, and
what stands under their key already is combined with them.  So much is the same for any keys and
values.  A merge of entries with distinct keys keeps the order of the first keys, adds the new ones
in theirs, and holds under each key what its operands hold there together (`overlay_eq_ok_iff`);
there is one unless the values under some key do not combine (`exists_overlay_iff`).  It is
associative where combining is, key by key (`associates_overlay`).
-/

namespace GraphQuery

def Associates {α ε : Type} (combine : α → α → Except ε α) (a b c : α) : Prop :=
  ∀ d, (∃ ab, combine a b = .ok ab ∧ combine ab c = .ok d) ↔
    ∃ bc, combine b c = .ok bc ∧ combine a bc = .ok d

theorem Except.toOption_eq_some {ε α : Type} {x : Except ε α} {v : α} :
    x.toOption = some v ↔ x = .ok v := by
  cases x <;> simp [Except.toOption]

theorem Except.exists_error_iff {ε α : Type} {x : Except ε α} :
    (∃ e, x = .error e) ↔ ¬∃ a, x = .ok a := by
  cases x <;> simp

theorem Associates.toOption_eq {α ε : Type} {combine : α → α → Except ε α} {a b c : α}
    (h : Associates combine a b c) :
    ((combine a b).bind (combine · c)).toOption = ((combine b c).bind (combine a ·)).toOption := by
  refine Option.ext fun d => ?_
  rw [Except.toOption_eq_some, Except.toOption_eq_some, Except.bind_eq_ok, Except.bind_eq_ok]
  exact h d

theorem associates_of_eq {α ε : Type} {combine : α → α → Except ε α} {a b c ab bc d : α}
    (hab : combine a b = .ok ab) (hbc : combine b c = .ok bc) (hl : combine ab c = .ok d)
    (hr : combine a bc = .ok d) : Associates combine a b c := by
  intro e
  simp only [hab, hbc, Except.ok.injEq, exists_eq_left', hl, hr]

theorem Associates.map {α β ε : Type} {combine : α → α → Except ε α}
    {combine' : β → β → Except ε β} {g : α → β}
    (hg : ∀ x y, combine' (g x) (g y) = (combine x y).map g) {a b c : α}
    (h : Associates combine a b c) : Associates combine' (g a) (g b) (g c) := by
  intro d
  constructor
  · rintro ⟨_, hx, hd⟩
    obtain ⟨ab, hab, rfl⟩ := Except.map_eq_ok.1 ((hg a b).symm.trans hx)
    obtain ⟨u, hu, rfl⟩ := Except.map_eq_ok.1 ((hg ab c).symm.trans hd)
    obtain ⟨bc, hbc, hu⟩ := (h u).1 ⟨ab, hab, hu⟩
    exact ⟨g bc, by rw [hg, hbc]; rfl, by rw [hg, hu]; rfl⟩
  · rintro ⟨_, hx, hd⟩
    obtain ⟨bc, hbc, rfl⟩ := Except.map_eq_ok.1 ((hg b c).symm.trans hx)
    obtain ⟨u, hu, rfl⟩ := Except.map_eq_ok.1 ((hg a bc).symm.trans hd)
    obtain ⟨ab, hab, hu⟩ := (h u).2 ⟨bc, hbc, hu⟩
    exact ⟨g ab, by rw [hg, hab]; rfl, by rw [hg, hu]; rfl⟩

namespace Overlay

variable {K V ε : Type}

def both (combine : V → V → Except ε V) : Option V → Option V → Except ε (Option V)
  | some a, some b => (combine a b).map some
  | some a, none => .ok (some a)
  | none, b => .ok b

variable [DecidableEq K]

def put (combine : V → V → Except ε V) (key : K) (value : V) :
    List (K × V) → Except ε (List (K × V))
  | [] => .ok [(key, value)]
  | (k, v) :: rest =>
    if k = key then (combine v value).map fun u => (k, u) :: rest
    else (put combine key value rest).map ((k, v) :: ·)

def overlay (combine : K → V → V → Except ε V) :
    List (K × V) → List (K × V) → Except ε (List (K × V))
  | entries, [] => .ok entries
  | entries, (key, value) :: rest =>
    (put (combine key) key value entries).bind fun entries => overlay combine entries rest

def joinKeys (xs ys : List K) : List K := xs ++ ys.filter (· ∉ xs)

/-! ## Keys -/

theorem mem_joinKeys {xs ys : List K} {k : K} : k ∈ joinKeys xs ys ↔ k ∈ xs ∨ k ∈ ys := by
  by_cases h : k ∈ xs <;> simp [joinKeys, h]

theorem nodup_joinKeys {xs ys : List K} (hx : xs.Nodup) (hy : ys.Nodup) :
    (joinKeys xs ys).Nodup := by
  refine List.nodup_append.2 ⟨hx, hy.filter _, fun k hk k' hk' he => ?_⟩
  exact of_decide_eq_true (List.mem_filter.1 hk').2 (he ▸ hk)

theorem joinKeys_assoc (xs ys zs : List K) :
    joinKeys (joinKeys xs ys) zs = joinKeys xs (joinKeys ys zs) := by
  have hz : zs.filter (· ∉ joinKeys xs ys) = (zs.filter (· ∉ ys)).filter (· ∉ xs) := by
    rw [List.filter_filter]
    exact List.filter_congr fun k _ => by simp [mem_joinKeys]
  rw [joinKeys, hz, joinKeys, joinKeys, joinKeys, List.filter_append, List.append_assoc]

theorem joinKeys_cons {xs ys : List K} {k : K} (h : k ∉ ys) :
    joinKeys (joinKeys xs [k]) ys = joinKeys xs (k :: ys) := by
  have hk : joinKeys [k] ys = k :: ys :=
    congrArg (k :: ·) (List.filter_eq_self.2 fun q hq => by
      simpa using fun he : q = k => h (he ▸ hq))
  rw [joinKeys_assoc, hk]

/-! ## Looking up -/

theorem lookup_cons_of_ne {k k' : K} (h : k' ≠ k) (v : V) (rest : List (K × V)) :
    ((k, v) :: rest).lookup k' = rest.lookup k' := by
  rw [List.lookup_cons, beq_false_of_ne h]

theorem lookup_eq_none {k : K} {entries : List (K × V)} :
    entries.lookup k = none ↔ k ∉ entries.map Prod.fst := by
  simp only [List.lookup_eq_none_iff, List.mem_map, not_exists, not_and, bne_iff_ne, ne_eq,
    @eq_comm _ k]

theorem mem_of_lookup {entries : List (K × V)} {k : K} {v : V} (h : entries.lookup k = some v) :
    (k, v) ∈ entries := by
  obtain ⟨pre, post, rfl, -⟩ := List.lookup_eq_some_iff.1 h
  exact List.mem_append_right pre List.mem_cons_self

theorem lookup_of_mem {e : K × V} : ∀ {entries : List (K × V)}, (entries.map Prod.fst).Nodup →
    e ∈ entries → entries.lookup e.1 = some e.2
  | [], _, he => by cases he
  | (k, v) :: rest, hn, he => by
    rw [List.map_cons] at hn
    obtain ⟨hnew, hn⟩ := List.nodup_cons.1 hn
    rcases List.mem_cons.1 he with rfl | he
    · exact List.lookup_cons_self
    · have hk : e.1 ≠ k := fun hk => hnew (List.mem_map.2 ⟨e, he, hk⟩)
      rw [lookup_cons_of_ne hk, lookup_of_mem hn he]

theorem eq_of_lookup : ∀ {xs ys : List (K × V)}, (xs.map Prod.fst).Nodup →
    xs.map Prod.fst = ys.map Prod.fst → (∀ k, xs.lookup k = ys.lookup k) → xs = ys
  | [], [], _, _, _ => rfl
  | [], _ :: _, _, hk, _ | _ :: _, [], _, hk, _ => by cases hk
  | (k, v) :: xs, (k', w) :: ys, hn, hk, hl => by
    rw [List.map_cons, List.map_cons] at hk
    rw [List.map_cons] at hn
    obtain ⟨rfl, hks⟩ := List.cons.inj hk
    obtain ⟨hnew, hn⟩ := List.nodup_cons.1 hn
    have hv := hl k
    rw [List.lookup_cons_self, List.lookup_cons_self, Option.some.injEq] at hv
    have hrest : xs = ys := eq_of_lookup hn hks fun q => by
      by_cases hq : q = k
      · subst hq
        rw [lookup_eq_none.2 hnew, lookup_eq_none.2 (hks ▸ hnew)]
      · rw [← lookup_cons_of_ne hq v xs, hl q, lookup_cons_of_ne hq]
    rw [hv, hrest]

/-! ## What two places hold -/

theorem both_none (combine : V → V → Except ε V) (x : Option V) : both combine x none = .ok x := by
  cases x <;> rfl

theorem none_both (combine : V → V → Except ε V) (x : Option V) : both combine none x = .ok x := rfl

theorem both_cases {combine : V → V → Except ε V} : ∀ {x y z : Option V},
    both combine x y = .ok z → (x = none ∧ y = z) ∨ (y = none ∧ x = z) ∨
      ∃ a b c, x = some a ∧ y = some b ∧ z = some c ∧ combine a b = .ok c
  | none, y, z, h => .inl ⟨rfl, Except.ok.inj h⟩
  | some a, none, z, h => .inr (.inl ⟨rfl, Except.ok.inj h⟩)
  | some a, some b, z, h => by
    obtain ⟨c, hc, rfl⟩ := Except.map_eq_ok.1 h
    exact .inr (.inr ⟨a, b, c, rfl, rfl, rfl, hc⟩)

theorem exists_both {combine : V → V → Except ε V} : ∀ {x y : Option V},
    (∀ a b, x = some a → y = some b → ∃ c, combine a b = .ok c) →
      ∃ z, both combine x y = .ok z
  | none, y, _ => ⟨y, rfl⟩
  | some a, none, _ => ⟨some a, rfl⟩
  | some a, some b, h =>
    have ⟨c, hc⟩ := h a b rfl rfl
    ⟨some c, Except.map_eq_ok.2 ⟨c, hc, rfl⟩⟩

/-! ## Putting one entry -/

section

variable {combine : V → V → Except ε V} {key : K} {value : V}

theorem map_fst_put : ∀ {entries merged : List (K × V)},
    put combine key value entries = .ok merged →
      merged.map Prod.fst = joinKeys (entries.map Prod.fst) [key]
  | [], merged, h => by cases h; rfl
  | (k, v) :: rest, merged, h => by
    rw [put] at h
    split at h
    · rename_i hk
      obtain ⟨u, -, rfl⟩ := Except.map_eq_ok.1 h
      simp [joinKeys, hk]
    · rename_i hk
      obtain ⟨others, ho, rfl⟩ := Except.map_eq_ok.1 h
      have hmem : key ∈ k :: rest.map Prod.fst ↔ key ∈ rest.map Prod.fst :=
        List.mem_cons.trans (or_iff_right (Ne.symm hk))
      rw [List.map_cons, List.map_cons, map_fst_put ho]
      simp only [joinKeys, List.filter_singleton, hmem, List.cons_append]

theorem lookup_put_self : ∀ {entries merged : List (K × V)},
    put combine key value entries = .ok merged →
      both combine (entries.lookup key) (some value) = .ok (merged.lookup key)
  | [], merged, h => by
    cases h
    exact congrArg Except.ok List.lookup_cons_self.symm
  | (k, v) :: rest, merged, h => by
    rw [put] at h
    split at h
    · rename_i hk
      subst hk
      obtain ⟨u, hu, rfl⟩ := Except.map_eq_ok.1 h
      rw [List.lookup_cons_self, List.lookup_cons_self, both, hu]
      rfl
    · rename_i hk
      obtain ⟨others, ho, rfl⟩ := Except.map_eq_ok.1 h
      rw [lookup_cons_of_ne (Ne.symm hk), lookup_cons_of_ne (Ne.symm hk)]
      exact lookup_put_self ho

theorem lookup_put_of_ne {k' : K} (hk' : k' ≠ key) : ∀ {entries merged : List (K × V)},
    put combine key value entries = .ok merged → merged.lookup k' = entries.lookup k'
  | [], merged, h => by
    cases h
    exact lookup_cons_of_ne hk' value []
  | (k, v) :: rest, merged, h => by
    rw [put] at h
    split at h
    · rename_i hk
      subst hk
      obtain ⟨u, -, rfl⟩ := Except.map_eq_ok.1 h
      rw [lookup_cons_of_ne hk', lookup_cons_of_ne hk']
    · obtain ⟨others, ho, rfl⟩ := Except.map_eq_ok.1 h
      rw [List.lookup_cons, List.lookup_cons, lookup_put_of_ne hk' ho]

theorem exists_put : ∀ {entries : List (K × V)} {found : Option V},
    both combine (entries.lookup key) (some value) = .ok found →
      ∃ merged, put combine key value entries = .ok merged
  | [], _, _ => ⟨_, rfl⟩
  | (k, v) :: rest, found, h => by
    rw [put]
    split
    · rename_i hk
      subst hk
      rw [List.lookup_cons_self, both] at h
      obtain ⟨u, hu, -⟩ := Except.map_eq_ok.1 h
      exact ⟨_, Except.map_eq_ok.2 ⟨u, hu, rfl⟩⟩
    · rename_i hk
      rw [lookup_cons_of_ne (Ne.symm hk)] at h
      obtain ⟨others, ho⟩ := exists_put h
      exact ⟨_, Except.map_eq_ok.2 ⟨others, ho, rfl⟩⟩

end

/-! ## Putting all entries -/

section

variable {combine : K → V → V → Except ε V}

theorem map_fst_overlay : ∀ {ys xs merged : List (K × V)}, (ys.map Prod.fst).Nodup →
    overlay combine xs ys = .ok merged →
      merged.map Prod.fst = joinKeys (xs.map Prod.fst) (ys.map Prod.fst)
  | [], xs, merged, _, h => by
    cases h
    exact (List.append_nil _).symm
  | (key, value) :: rest, xs, merged, hn, h => by
    obtain ⟨put, hp, h⟩ := Except.bind_eq_ok.1 h
    obtain ⟨hnew, hn⟩ := List.nodup_cons.1 hn
    rw [map_fst_overlay hn h, map_fst_put hp, joinKeys_cons hnew]
    rfl

/-- **Under each key a merge holds what its operands hold there together.** -/
theorem lookup_overlay (k : K) : ∀ {ys xs merged : List (K × V)}, (ys.map Prod.fst).Nodup →
    overlay combine xs ys = .ok merged →
      both (combine k) (xs.lookup k) (ys.lookup k) = .ok (merged.lookup k)
  | [], xs, merged, _, h => by
    cases h
    exact both_none (combine k) _
  | (key, value) :: rest, xs, merged, hn, h => by
    obtain ⟨put, hp, h⟩ := Except.bind_eq_ok.1 h
    obtain ⟨hnew, hn⟩ := List.nodup_cons.1 hn
    have hrest := lookup_overlay k hn h
    by_cases hk : k = key
    · -- the key does not come again, so what was put there stays
      subst hk
      rw [lookup_eq_none.2 hnew] at hrest
      rw [both_none] at hrest
      rw [List.lookup_cons_self, lookup_put_self hp, hrest]
    · rw [lookup_cons_of_ne hk, ← lookup_put_of_ne hk hp]
      exact hrest

theorem exists_overlay : ∀ {ys xs : List (K × V)}, (ys.map Prod.fst).Nodup →
    (∀ k, ∃ found, both (combine k) (xs.lookup k) (ys.lookup k) = .ok found) →
      ∃ merged, overlay combine xs ys = .ok merged
  | [], xs, _, _ => ⟨xs, rfl⟩
  | (key, value) :: rest, xs, hn, h => by
    obtain ⟨hnew, hn⟩ := List.nodup_cons.1 hn
    obtain ⟨found, hfound⟩ := h key
    rw [List.lookup_cons_self] at hfound
    obtain ⟨put, hp⟩ := exists_put hfound
    have hrest (k : K) : ∃ found, both (combine k) (put.lookup k) (rest.lookup k) = .ok found := by
      by_cases hk : k = key
      · subst hk
        exact ⟨_, lookup_eq_none.2 hnew ▸ both_none (combine k) _⟩
      · rw [lookup_put_of_ne hk hp, ← lookup_cons_of_ne hk value rest]
        exact h k
    obtain ⟨merged, hm⟩ := exists_overlay hn hrest
    exact ⟨merged, Except.bind_eq_ok.2 ⟨put, hp, hm⟩⟩

/--
**Entries merge just when what they hold under each key does**, to entries that hold that under each
key.
-/
theorem exists_overlay_iff {P : K → Option V → Prop} {xs ys : List (K × V)}
    (hy : (ys.map Prod.fst).Nodup) :
    (∃ merged, overlay combine xs ys = .ok merged ∧ ∀ k, P k (merged.lookup k)) ↔
      ∀ k, ∃ found, both (combine k) (xs.lookup k) (ys.lookup k) = .ok found ∧ P k found := by
  constructor
  · rintro ⟨merged, hm, h⟩ k
    exact ⟨_, lookup_overlay k hy hm, h k⟩
  · intro h
    obtain ⟨merged, hm⟩ := exists_overlay hy fun k => (h k).imp fun _ => And.left
    refine ⟨merged, hm, fun k => ?_⟩
    obtain ⟨found, hf, hp⟩ := h k
    rwa [Except.ok.inj ((lookup_overlay k hy hm).symm.trans hf)]

/-- **The merge of entries, by its keys and by what it holds under each of them.** -/
theorem overlay_eq_ok_iff {xs ys merged : List (K × V)} (hx : (xs.map Prod.fst).Nodup)
    (hy : (ys.map Prod.fst).Nodup) : overlay combine xs ys = .ok merged ↔
      merged.map Prod.fst = joinKeys (xs.map Prod.fst) (ys.map Prod.fst) ∧
        ∀ k, both (combine k) (xs.lookup k) (ys.lookup k) = .ok (merged.lookup k) := by
  constructor
  · intro h
    exact ⟨map_fst_overlay hy h, fun k => lookup_overlay k hy h⟩
  · rintro ⟨hk, hl⟩
    obtain ⟨other, ho⟩ := exists_overlay hy fun k => ⟨_, hl k⟩
    have hok := map_fst_overlay hy ho
    have hsame : other = merged := by
      refine eq_of_lookup (hok ▸ nodup_joinKeys hx hy) (hok.trans hk.symm) fun k => ?_
      exact Except.ok.inj ((lookup_overlay k hy ho).symm.trans (hl k))
    exact hsame ▸ ho

theorem nodup_overlay {xs ys merged : List (K × V)} (hx : (xs.map Prod.fst).Nodup)
    (hy : (ys.map Prod.fst).Nodup) (h : overlay combine xs ys = .ok merged) :
    (merged.map Prod.fst).Nodup := map_fst_overlay hy h ▸ nodup_joinKeys hx hy

end

/-! ## Associativity -/

theorem associates_both {combine : V → V → Except ε V} : ∀ {x y z : Option V},
    (∀ a b c, x = some a → y = some b → z = some c → Associates combine a b c) →
      Associates (both combine) x y z
  | none, y, z, _, d => by simp [none_both]
  | some a, none, z, _, d => by simp [none_both, both_none]
  | some a, some b, none, _, d => by simp [both_none]
  | some a, some b, some c, h, d => (h a b c rfl rfl rfl).map (fun _ _ => rfl) d

/-- **Merging is associative where combining is, key by key.** -/
theorem associates_overlay {combine : K → V → V → Except ε V} {xs ys zs : List (K × V)}
    (hx : (xs.map Prod.fst).Nodup) (hy : (ys.map Prod.fst).Nodup) (hz : (zs.map Prod.fst).Nodup)
    (h : ∀ k a b c, xs.lookup k = some a → ys.lookup k = some b → zs.lookup k = some c →
      Associates (combine k) a b c) : Associates (overlay combine) xs ys zs := by
  intro merged
  have hleft : (∃ xys, overlay combine xs ys = .ok xys ∧ overlay combine xys zs = .ok merged) ↔
      merged.map Prod.fst =
          joinKeys (joinKeys (xs.map Prod.fst) (ys.map Prod.fst)) (zs.map Prod.fst) ∧
        ∀ k, ∃ xy, both (combine k) (xs.lookup k) (ys.lookup k) = .ok xy ∧
          both (combine k) xy (zs.lookup k) = .ok (merged.lookup k) := by
    rw [← exists_overlay_iff hy, ← exists_and_left]
    refine exists_congr fun xys => Iff.trans (and_congr_right fun h => ?_) and_left_comm
    rw [overlay_eq_ok_iff (nodup_overlay hx hy h) hz, map_fst_overlay hy h]
  have hright : (∃ yzs, overlay combine ys zs = .ok yzs ∧ overlay combine xs yzs = .ok merged) ↔
      merged.map Prod.fst =
          joinKeys (xs.map Prod.fst) (joinKeys (ys.map Prod.fst) (zs.map Prod.fst)) ∧
        ∀ k, ∃ yz, both (combine k) (ys.lookup k) (zs.lookup k) = .ok yz ∧
          both (combine k) (xs.lookup k) yz = .ok (merged.lookup k) := by
    rw [← exists_overlay_iff hz, ← exists_and_left]
    refine exists_congr fun yzs => Iff.trans (and_congr_right fun h => ?_) and_left_comm
    rw [overlay_eq_ok_iff hx (nodup_overlay hy hz h), map_fst_overlay hz h]
  rw [hleft, hright, joinKeys_assoc]
  exact and_congr_right fun _ => forall_congr' fun k =>
    associates_both (h k) (merged.lookup k)

end Overlay

end GraphQuery
