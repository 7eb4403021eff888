import GraphQuery.Number.Numeral
/-!
# Integers and their numerals

An integer is written as digits, with a minus sign in front if it is negative, and is read back from
them (`Numeral.int64?_toList_toString`).
-/

namespace GraphQuery

namespace Numeral

theorem digitsValue_toDigits (n : Nat) : digitsValue (Nat.toDigits 10 n) = n :=
  Nat.ofDigitChars_toDigits (by omega) (by omega)

theorem all_isDigit_toDigits (n : Nat) : (Nat.toDigits 10 n).all Char.isDigit = true :=
  List.all_eq_true.2 fun _ h => Nat.isDigit_of_mem_toDigits (by omega) (by omega) h

theorem toDigits_eq_cons (n : Nat) : ∃ d ds, Nat.toDigits 10 n = d :: ds ∧ d.isDigit = true := by
  obtain ⟨d, ds, h⟩ := List.exists_cons_of_ne_nil (Nat.toDigits_ne_nil (b := 10) (n := n))
  have hall := all_isDigit_toDigits n
  rw [h, List.all_cons, Bool.and_eq_true] at hall
  exact ⟨d, ds, h, hall.1⟩

theorem head?_toDigits_ne {n : Nat} (h : 0 < n) : (Nat.toDigits 10 n).head? ≠ some '0' := by
  induction n using Nat.strongRecOn with
  | ind n ih =>
    rw [Nat.toDigits_eq_if (by decide)]
    split
    · rename_i hlt
      have hdigit : ∀ d < 10, 0 < d → ([Nat.digitChar d].head? : Option Char) ≠ some '0' := by
        decide
      exact hdigit n hlt h
    · obtain ⟨d, ds, hd, -⟩ := toDigits_eq_cons (n / 10)
      have hhead := ih (n / 10) (by omega) (by omega)
      rw [hd] at hhead ⊢
      exact hhead

theorem toList_toString (z : Int) : (toString z).toList =
    if z < 0 then '-' :: Nat.toDigits 10 z.natAbs else Nat.toDigits 10 z.natAbs := by
  cases z with
  | ofNat n =>
    have hpos : ¬ (Int.ofNat n : Int) < 0 := by simp
    rw [if_neg hpos]
    exact Nat.toList_repr
  | negSucc n =>
    rw [if_pos (Int.negSucc_lt_zero n)]
    show ("-" ++ (n + 1).repr).toList = _
    rw [String.toList_append, Nat.toList_repr]
    rfl

theorem takeMinus_of_isDigit {d : Char} (h : d.isDigit = true) (ds : List Char) :
    takeMinus (d :: ds) = (false, d :: ds) := by
  have hne : d ≠ '-' := fun he => by
    rw [he] at h
    cases h
  unfold takeMinus
  split
  · rename_i heq
    exact absurd (List.cons.inj heq).1 hne
  · rfl

theorem takeMinus_toList_toString (z : Int) :
    takeMinus (toString z).toList = (decide (z < 0), Nat.toDigits 10 z.natAbs) := by
  rw [toList_toString]
  by_cases h : z < 0
  · simp [h, takeMinus]
  · obtain ⟨d, ds, hd, hdigit⟩ := toDigits_eq_cons z.natAbs
    rw [if_neg h, hd, takeMinus_of_isDigit hdigit]
    simp [h]

/-- **An integer is read back from its text.** -/
theorem int64?_toList_toString (i : Int64) : int64? (toString i.toInt).toList = some i := by
  have hempty : (Nat.toDigits 10 i.toInt.natAbs).isEmpty = false := by
    simp [Nat.toDigits_ne_nil]
  have hvalue : (if decide (i.toInt < 0) = true then -(i.toInt.natAbs : Int)
      else (i.toInt.natAbs : Int)) = i.toInt := by
    by_cases h : i.toInt < 0
    · rw [if_pos (decide_eq_true h)]
      omega
    · rw [if_neg (by simp [h])]
      omega
  have hbounds : Int64.minValue.toInt ≤ i.toInt ∧ i.toInt ≤ Int64.maxValue.toInt :=
    ⟨i.minValue_le_toInt, i.toInt_le⟩
  simp only [int64?, takeMinus_toList_toString, hempty, all_isDigit_toDigits, digitsValue_toDigits,
    hvalue, Bool.not_true, Bool.or_self, Bool.false_eq_true, if_false]
  rw [if_pos hbounds, Int64.ofInt_toInt]

theorem mem_toString {z : Int} {c : Char} (h : c ∈ (toString z).toList) :
    c = '-' ∨ c.isDigit = true := by
  have hdigit := List.all_eq_true.1 (all_isDigit_toDigits z.natAbs) c
  rw [toList_toString] at h
  split at h
  · rcases List.mem_cons.1 h with rfl | h
    · exact .inl rfl
    · exact .inr (hdigit h)
  · exact .inr (hdigit h)

end Numeral

end GraphQuery
