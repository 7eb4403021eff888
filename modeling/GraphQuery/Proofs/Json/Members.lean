import GraphQuery.Json.Basic
import GraphQuery.Proofs.Text.Utf8
import GraphQuery.Value.Lemmas
import Mathlib.Data.List.Induction
import Mathlib.Data.List.Nodup
import Mathlib.Data.List.Sort
/-!
# Sorted members

The members of an object come by ascending name (`Json.ascending_sortedMembers`), and under each name
is what was last said under it (`Json.lookup_sortedMembers`).  Members that are sorted already stay as
they are, and members with different names are all kept: they are sorted by the bytes of their names
(`Json.sortedMembers_eq_insertionSort`).
-/

namespace GraphQuery

def NameOrder {V : Type} (a b : String × V) : Prop := Text.bytes a.1 ≤ Text.bytes b.1

instance {V : Type} : DecidableRel (NameOrder (V := V)) :=
  fun a b => inferInstanceAs (Decidable (Text.bytes a.1 ≤ Text.bytes b.1))

theorem nameOrder_iff {V : Type} {a b : String × V} : NameOrder a b ↔ a.1 ≤ b.1 :=
  Text.bytes_le_iff

instance {V : Type} : Std.Total (NameOrder (V := V)) where
  total a b := by
    rw [nameOrder_iff, nameOrder_iff]
    exact le_total a.1 b.1

instance {V : Type} : IsTrans (String × V) NameOrder where
  trans a b c := by
    rw [nameOrder_iff, nameOrder_iff, nameOrder_iff]
    exact le_trans

theorem map_insertionSort_nameOrder {V W : Type} (g : V → W) (fields : List (String × V)) :
    (fields.insertionSort NameOrder).map (fun f => (f.1, g f.2)) =
      (fields.map fun f => (f.1, g f.2)).insertionSort NameOrder :=
  List.map_insertionSort NameOrder NameOrder _ fields fun _ _ _ _ => Iff.rfl

theorem nodup_names_insertionSort {V : Type} {fields : List (String × V)} :
    ((fields.insertionSort NameOrder).map Prod.fst).Nodup ↔ (fields.map Prod.fst).Nodup :=
  ((List.perm_insertionSort NameOrder fields).map Prod.fst).nodup_iff

namespace Json

variable {name n : String} {j : Json} {ms : List (String × Json)}

def Ascending (ms : List (String × Json)) : Prop := ms.Pairwise fun a b => a.1 < b.1

theorem ascending_iff : Ascending ms ↔ (ms.map Prod.fst).Pairwise (· < ·) := List.pairwise_map.symm

theorem mem_insertMember {m : String × Json} (h : m ∈ insertMember name j ms) :
    m = (name, j) ∨ m ∈ ms := by
  induction ms with
  | nil => exact .inl (List.mem_singleton.1 h)
  | cons k rest ih =>
    rw [insertMember] at h
    split at h
    · exact List.mem_cons.1 h
    · exact (List.mem_cons.1 h).imp_right (List.mem_cons_of_mem k)
    · rcases List.mem_cons.1 h with rfl | h
      · exact .inr List.mem_cons_self
      · exact (ih h).imp_right (List.mem_cons_of_mem k)

theorem ascending_insertMember (h : Ascending ms) : Ascending (insertMember name j ms) := by
  induction ms with
  | nil => exact List.pairwise_singleton _ _
  | cons k rest ih =>
    obtain ⟨hk, hrest⟩ := List.pairwise_cons.1 h
    rw [insertMember]
    split
    · rename_i hlt
      have hlt : name < k.1 := compare_lt_iff_lt.1 hlt
      exact List.pairwise_cons.2 ⟨List.forall_mem_cons.2 ⟨hlt, fun m hm => hlt.trans (hk m hm)⟩, h⟩
    · rename_i heq
      obtain rfl : name = k.1 := compare_eq_iff_eq.1 heq
      exact List.pairwise_cons.2 ⟨hk, hrest⟩
    · rename_i hgt
      have hgt : k.1 < name := compare_gt_iff_gt.1 hgt
      refine List.pairwise_cons.2 ⟨fun m hm => ?_, ih hrest⟩
      rcases mem_insertMember hm with rfl | hm
      · exact hgt
      · exact hk m hm

theorem lookup_insertMember : Record.lookup n (insertMember name j ms) =
    if n = name then some j else Record.lookup n ms := by
  induction ms with
  | nil => simp only [insertMember, Record.lookup, eq_comm]
  | cons k rest ih =>
    rw [insertMember]
    split
    · simp only [Record.lookup, eq_comm]
    · rename_i heq
      have hk : k.1 = name := (compare_eq_iff_eq.1 heq).symm
      by_cases hn : n = name
      · simp [Record.lookup, hn]
      · simp [Record.lookup, hk, hn, Ne.symm hn]
    · rename_i hgt
      have hne : k.1 ≠ name := (compare_gt_iff_gt.1 hgt).ne
      rw [Record.lookup, ih, Record.lookup]
      by_cases hn : n = name
      · simp [hn, hne]
      · simp [hn]

theorem insertMember_of_lt (h : ∀ m ∈ ms, m.1 < name) : insertMember name j ms = ms ++ [(name, j)] := by
  induction ms with
  | nil => rfl
  | cons k rest ih =>
    obtain ⟨hk, hrest⟩ := List.forall_mem_cons.1 h
    have hgt : compare name k.1 = .gt := compare_gt_iff_gt.2 hk
    simp only [insertMember, hgt]
    rw [ih hrest]
    rfl

theorem perm_insertMember (h : name ∉ ms.map Prod.fst) :
    (insertMember name j ms).Perm ((name, j) :: ms) := by
  induction ms with
  | nil => exact .refl _
  | cons k rest ih =>
    rw [List.map_cons, List.mem_cons, not_or] at h
    rw [insertMember]
    split
    · exact .refl _
    · rename_i heq
      exact absurd (compare_eq_iff_eq.1 heq) h.1
    · exact ((ih h.2).cons k).trans (.swap _ _ _)

/-! ## All members -/

def sortedMembers (ms : List (String × Json)) : List (String × Json) :=
  ms.foldl (fun sorted m => insertMember m.1 m.2 sorted) []

theorem ofMembers_eq (ms : List (String × Json)) : ofMembers ms = object (sortedMembers ms) := rfl

theorem sortedMembers_concat (ms : List (String × Json)) (m : String × Json) :
    sortedMembers (ms ++ [m]) = insertMember m.1 m.2 (sortedMembers ms) := by
  rw [sortedMembers, List.foldl_append]
  rfl

theorem mem_of_mem_sortedMembers {m : String × Json} (h : m ∈ sortedMembers ms) : m ∈ ms := by
  induction ms using List.reverseRecOn with
  | nil => cases h
  | append_singleton ms k ih =>
    rw [sortedMembers_concat] at h
    rw [List.mem_append, List.mem_singleton]
    exact (mem_insertMember h).symm.imp_left ih

/-- **Members come by ascending name**, so no name comes twice. -/
theorem ascending_sortedMembers (ms : List (String × Json)) : Ascending (sortedMembers ms) := by
  induction ms using List.reverseRecOn with
  | nil => exact .nil
  | append_singleton ms m ih =>
    rw [sortedMembers_concat]
    exact ascending_insertMember ih

/-- **Under a name is what was last said under it.** -/
theorem lookup_sortedMembers (n : String) (ms : List (String × Json)) :
    Record.lookup n (sortedMembers ms) = Record.lookup n ms.reverse := by
  induction ms using List.reverseRecOn with
  | nil => rfl
  | append_singleton ms m ih =>
    rw [sortedMembers_concat, lookup_insertMember, List.reverse_concat, Record.lookup, ih]
    simp only [eq_comm]

/-- **Members that are sorted stay as they are.** -/
theorem sortedMembers_of_ascending (h : Ascending ms) : sortedMembers ms = ms := by
  induction ms using List.reverseRecOn with
  | nil => rfl
  | append_singleton ms m ih =>
    obtain ⟨hms, -, hlt⟩ := List.pairwise_append.1 h
    rw [sortedMembers_concat, ih hms]
    exact insertMember_of_lt fun k hk => hlt k hk m List.mem_cons_self

theorem perm_sortedMembers (h : (ms.map Prod.fst).Nodup) : (sortedMembers ms).Perm ms := by
  induction ms using List.reverseRecOn with
  | nil => exact .refl _
  | append_singleton ms m ih =>
    rw [List.map_append, List.nodup_append] at h
    have hperm := ih h.1
    have hnew : m.1 ∉ (sortedMembers ms).map Prod.fst := fun hm =>
      h.2.2 m.1 ((hperm.map Prod.fst).mem_iff.1 hm) m.1 List.mem_cons_self rfl
    rw [sortedMembers_concat]
    exact ((perm_insertMember hnew).trans (hperm.cons m)).trans
      (List.perm_append_singleton m ms).symm

/-- **Members with different names are sorted by the bytes of their names.** -/
theorem sortedMembers_eq_insertionSort (h : (ms.map Prod.fst).Nodup) :
    sortedMembers ms = ms.insertionSort NameOrder := by
  have hsorted : (sortedMembers ms).Pairwise NameOrder :=
    (ascending_sortedMembers ms).imp fun hlt => nameOrder_iff.2 hlt.le
  refine List.Perm.eq_of_pairwise (fun a b ha hb hab hba => ?_) hsorted
    (List.pairwise_insertionSort NameOrder ms)
    ((perm_sortedMembers h).trans (List.perm_insertionSort NameOrder ms).symm)
  have hname : a.1 = b.1 := le_antisymm (nameOrder_iff.1 hab) (nameOrder_iff.1 hba)
  exact List.inj_on_of_nodup_map h (mem_of_mem_sortedMembers ha)
    ((List.perm_insertionSort NameOrder ms).mem_iff.1 hb) hname

end Json

end GraphQuery
