import Mathlib.Order.Compare
import Mathlib.Data.String.Basic
/-!
# The order of UTF-8 texts

Texts compare by their code points.  UTF-8 keeps that order: wherever the bytes of two characters
part, the lower character has the lower byte, and the bytes of no character begin those of another
one (`Text.parts_utf8EncodeChar`).  So it makes no difference whether texts are sorted by their
characters or by their bytes (`Text.bytes_lt_iff`).
-/

namespace GraphQuery

namespace Text

def bytes (s : String) : List UInt8 := s.toByteArray.data.toList

theorem bytes_eq (s : String) : bytes s = s.toList.flatMap String.utf8EncodeChar := by
  conv_lhs => rw [← String.ofList_toList (s := s)]
  rw [bytes, String.toByteArray_ofList, List.utf8Encode, List.data_toByteArray]

/-- Whether two byte strings part at some byte, and the first of them has the lower one there. -/
inductive Parts : List UInt8 → List UInt8 → Prop
  | here {x y : UInt8} (h : x < y) (xs ys : List UInt8) : Parts (x :: xs) (y :: ys)
  | there (x : UInt8) {xs ys : List UInt8} (h : Parts xs ys) : Parts (x :: xs) (x :: ys)

theorem Parts.append_lt {xs ys : List UInt8} (h : Parts xs ys) (more others : List UInt8) :
    xs ++ more < ys ++ others := by
  induction h with
  | here h xs ys => exact List.cons_lt_cons_iff.2 (.inl h)
  | there x h ih => exact List.cons_lt_cons_iff.2 (.inr ⟨rfl, ih⟩)

theorem parts_of_lt {a b : Nat} (hb : b < 256) (h : a < b) (xs ys : List UInt8) :
    Parts (UInt8.ofNat a :: xs) (UInt8.ofNat b :: ys) :=
  .here ((UInt8.ofNat_lt_iff_lt (Nat.lt_trans h hb) hb).2 h) xs ys

theorem parts_of_le {a b : Nat} (hb : b < 256) (hle : a ≤ b) {xs ys : List UInt8}
    (h : a = b → Parts xs ys) : Parts (UInt8.ofNat a :: xs) (UInt8.ofNat b :: ys) := by
  rcases Nat.lt_or_eq_of_le hle with hlt | rfl
  · exact parts_of_lt hb hlt xs ys
  · exact .there _ (h rfl)

/-- **The bytes of two characters part**, and the lower character has the lower byte there. -/
theorem parts_utf8EncodeChar {c d : Char} (h : c < d) :
    Parts (String.utf8EncodeChar c) (String.utf8EncodeChar d) := by
  have hlt : c.val.toNat < d.val.toNat := h
  have hmax : d.val.toNat < 1114112 := by
    rcases d.valid with hd | hd <;> omega
  unfold String.utf8EncodeChar
  dsimp only
  generalize c.val.toNat = v at hlt
  generalize d.val.toNat = w at hlt hmax
  -- the longer encodings begin with the higher bytes; those of one length part at a digit
  split
  · split
    · exact parts_of_lt (by omega) hlt _ _
    · split
      · exact parts_of_lt (by omega) (by omega) _ _
      · split <;> exact parts_of_lt (by omega) (by omega) _ _
  · rw [if_neg (by omega : ¬ w ≤ 127)]
    split
    · split
      · exact parts_of_le (by omega) (by omega) fun _ => parts_of_lt (by omega) (by omega) _ _
      · split <;> exact parts_of_lt (by omega) (by omega) _ _
    · rw [if_neg (by omega : ¬ w ≤ 2047)]
      split
      · split
        · exact parts_of_le (by omega) (by omega) fun _ => parts_of_le (by omega) (by omega)
            fun _ => parts_of_lt (by omega) (by omega) _ _
        · exact parts_of_lt (by omega) (by omega) _ _
      · rw [if_neg (by omega : ¬ w ≤ 65535)]
        exact parts_of_le (by omega) (by omega) fun _ => parts_of_le (by omega) (by omega)
          fun _ => parts_of_le (by omega) (by omega) fun _ => parts_of_lt (by omega) (by omega) _ _

theorem utf8EncodeChar_eq_cons (c : Char) : ∃ x xs, String.utf8EncodeChar c = x :: xs := by
  unfold String.utf8EncodeChar
  dsimp only
  split
  · exact ⟨_, _, rfl⟩
  · split
    · exact ⟨_, _, rfl⟩
    · split <;> exact ⟨_, _, rfl⟩

theorem flatMap_utf8EncodeChar_lt : ∀ {cs ds : List Char}, cs < ds →
    cs.flatMap String.utf8EncodeChar < ds.flatMap String.utf8EncodeChar
  | _, [], h => absurd h (List.not_lt_nil _)
  | [], d :: ds, _ => by
    obtain ⟨x, xs, hx⟩ := utf8EncodeChar_eq_cons d
    rw [List.flatMap_cons, hx]
    exact List.nil_lt_cons _ _
  | c :: cs, d :: ds, h => by
    rw [List.flatMap_cons, List.flatMap_cons]
    rcases List.cons_lt_cons_iff.1 h with hlt | ⟨rfl, hlt⟩
    · exact (parts_utf8EncodeChar hlt).append_lt _ _
    · exact List.append_left_lt (flatMap_utf8EncodeChar_lt hlt)

/-- **Texts are ordered as their bytes are.** -/
theorem bytes_lt_iff {s t : String} : bytes s < bytes t ↔ s < t := by
  have mono : ∀ {s t : String}, s < t → bytes s < bytes t := fun h => by
    rw [bytes_eq, bytes_eq]
    exact flatMap_utf8EncodeChar_lt (String.lt_iff_toList_lt.1 h)
  refine ⟨fun h => ?_, mono⟩
  rcases lt_trichotomy s t with hlt | rfl | hgt
  · exact hlt
  · exact absurd h (List.lt_irrefl _)
  · exact absurd h (List.lt_asymm (mono hgt))

theorem bytes_le_iff {s t : String} : bytes s ≤ bytes t ↔ s ≤ t := by
  rw [← not_lt, ← bytes_lt_iff]
  rfl

end Text

end GraphQuery
