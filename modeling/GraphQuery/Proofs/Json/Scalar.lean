import GraphQuery.Json.Printer
import GraphQuery.Json.Token
import GraphQuery.Proofs.Number.Numeral
import Mathlib.Data.List.TakeWhile
/-!
# Reading scalars back from a JSON text

A string is read back from its quoted text, whatever characters it has (`Token.takeString_quote`),
and an integer from its digits (`Token.number?_toString`).  The text of a finite float is read as one
token, which is a number but never an integer (`Token.number?_floatText`).
-/

namespace GraphQuery

namespace Json

namespace Token

/-! ## Strings -/

theorem hexValue?_hexDigit (n : Nat) : hexValue? (hexDigit n) = some (n % 16) := by
  have h : ∀ d < 16, hexValue? (Nat.digitChar d) = some d := by decide
  exact h _ (Nat.mod_lt n (by decide))

theorem unit?_hexDigit {n : Nat} (h : n < 0x20) :
    unit? '0' '0' (hexDigit (n / 16)) (hexDigit n) = some n := by
  have hzero : hexValue? '0' = some 0 := by decide
  simp only [unit?, hzero, hexValue?_hexDigit, Option.bind_eq_bind, Option.bind_some, Option.pure_def,
    Option.some_inj]
  omega

/-- **A character is read back from its escape**, whatever follows. -/
theorem takeString_escape (c : Char) (rest : List Char) :
    takeString (escape c ++ rest) = (takeString rest).map (consChar c) := by
  unfold escape
  -- seven characters have a letter as their escape, the other control characters have digits
  iterate 7
    split
    · rename_i hc
      subst hc
      rfl
  split
  · rename_i hc
    have hhigh : isHighSurrogate c.toNat = false := by
      simp only [isHighSurrogate, Bool.and_eq_false_iff, decide_eq_false_iff_not]
      omega
    have hlow : isLowSurrogate c.toNat = false := by
      simp only [isLowSurrogate, Bool.and_eq_false_iff, decide_eq_false_iff_not]
      omega
    rw [List.cons_append, List.cons_append, takeString.eq_def]
    simp [unit?_hexDigit hc, hhigh, hlow]
  · rename_i hquote hslash _ _ _ _ _ hc
    rw [List.singleton_append, takeString, if_neg hc]
    · exact hquote
    · exact fun _ _ _ _ _ h => absurd h hslash
    · exact fun _ _ h => absurd h hslash

theorem takeString_quote (s : String) (rest : List Char) :
    takeString (s.toList.flatMap escape ++ '"' :: rest) = some (s.toList, rest) := by
  induction s.toList with
  | nil => rfl
  | cons c cs ih =>
    rw [List.flatMap_cons, List.append_assoc, takeString_escape, ih]
    rfl

/-! ## Numbers -/

theorem takeDigits_toDigits (n : Nat) :
    Numeral.takeDigits (Nat.toDigits 10 n) = (Nat.toDigits 10 n, []) := by
  have hscan := Text.takeWhile_append_stop
    (List.all_eq_true.1 (Numeral.all_isDigit_toDigits n)) (fun _ _ (h : [] = _) => by cases h)
  rw [List.append_nil] at hscan
  rw [Numeral.takeDigits, hscan.1, hscan.2]

theorem integer?_int64 (i : Int64) :
    integer? (decide (i.toInt < 0)) i.toInt.natAbs = some (.int i) := by
  have hvalue : (if decide (i.toInt < 0) = true then -(i.toInt.natAbs : Int)
      else (i.toInt.natAbs : Int)) = i.toInt := by
    simp only [decide_eq_true_eq]
    split <;> omega
  have hzero : ¬ (decide (i.toInt < 0) = true ∧ i.toInt.natAbs = 0) := by
    simp only [decide_eq_true_eq]
    omega
  have hbounds : Int64.minValue.toInt ≤ i.toInt ∧ i.toInt ≤ Int64.maxValue.toInt :=
    ⟨i.minValue_le_toInt, i.toInt_le⟩
  rw [integer?, hvalue, if_neg hzero, if_pos hbounds, Int64.ofInt_toInt]

/-- **An integer is read back from its text.** -/
theorem number?_toString (i : Int64) : number? (toString i.toInt).toList = some (.int i) := by
  have hdigits : ((Nat.toDigits 10 i.toInt.natAbs).isEmpty ||
      ((Nat.toDigits 10 i.toInt.natAbs).head? = some '0' &&
        1 < (Nat.toDigits 10 i.toInt.natAbs).length)) = false := by
    have hempty : (Nat.toDigits 10 i.toInt.natAbs).isEmpty = false := by
      simp [Nat.toDigits_ne_nil]
    rw [hempty, Bool.false_or]
    rcases Nat.eq_zero_or_pos i.toInt.natAbs with hzero | hpos
    · rw [hzero]
      rfl
    · simp [Numeral.head?_toDigits_ne hpos]
  simp only [number?, Numeral.takeMinus_toList_toString, takeDigits_toDigits, hdigits,
    Numeral.digitsValue_toDigits, integer?_int64, Bool.false_eq_true, if_false]

theorem finite?_eq_some {d : Double} {j : Json} (h : finite? d = some j) : j = .float d := by
  rw [finite?] at h
  split at h <;> cases h
  rfl

theorem integer?_eq_some {negative : Bool} {n : Nat} {j : Json}
    (h : integer? negative n = some j) : (∃ d, j = .float d) ∨ ∃ i, j = .int i := by
  simp only [integer?] at h
  generalize (if negative = true then -(n : Int) else (n : Int)) = value at h
  split at h
  · exact .inl ⟨_, finite?_eq_some h⟩
  · split at h
    · cases h
      exact .inr ⟨_, rfl⟩
    · exact .inl ⟨_, finite?_eq_some h⟩

theorem scaled?_eq_some {negative : Bool} {whole places rest : List Char} {j : Json}
    (h : scaled? negative whole places rest = some j) : ∃ d, j = .float d := by
  unfold scaled? at h
  split at h
  · exact ⟨_, finite?_eq_some h⟩
  · split at h
    · obtain ⟨e, -, h⟩ := Option.bind_eq_some_iff.1 h
      exact ⟨_, finite?_eq_some h⟩
    · cases h

theorem mem_takeMinus {cs : List Char} {c : Char} (h : c ∈ cs) :
    c = '-' ∨ c ∈ (Numeral.takeMinus cs).2 := by
  unfold Numeral.takeMinus
  split
  · exact List.mem_cons.1 h
  · exact .inr h

/-- **A number is read as a float, or as an integer that has no point and no exponent.** -/
theorem number?_eq_some {cs : List Char} {j : Json} (h : number? cs = some j) :
    (∃ d, j = .float d) ∨ (∃ i, j = .int i) ∧ ∀ c ∈ cs, c = '-' ∨ c.isDigit = true := by
  simp only [number?] at h
  split at h
  · cases h
  · split at h
    · rename_i hrest
      refine (integer?_eq_some h).imp_right fun hj => ⟨hj, fun c hc => ?_⟩
      refine (mem_takeMinus hc).imp_right fun hc => ?_
      exact List.dropWhile_eq_nil_iff.1 hrest c hc
    · split at h
      · cases h
      · exact .inl (scaled?_eq_some h)
    · exact .inl (scaled?_eq_some h)

/-! ## Floats -/

theorem isNumeric_of_isDigit {c : Char} (h : c.isDigit = true) : isNumeric c = true := by
  simp [isNumeric, h]

theorem isNumeric_of_mem_toDigits {n : Nat} {c : Char} (h : c ∈ Nat.toDigits 10 n) :
    isNumeric c = true :=
  isNumeric_of_isDigit (List.all_eq_true.1 (Numeral.all_isDigit_toDigits n) c h)

theorem isNumeric_of_mem_replicate {n : Nat} {c : Char} (h : c ∈ List.replicate n '0') :
    isNumeric c = true := by
  rw [List.eq_of_mem_replicate h]
  decide

structure IsFractional (cs : List Char) : Prop where
  numeric : ∀ c ∈ cs, isNumeric c = true
  mark : '.' ∈ cs ∨ 'e' ∈ cs

theorem IsFractional.ne_nil {cs : List Char} (h : IsFractional cs) : cs ≠ [] :=
  h.mark.elim List.ne_nil_of_mem List.ne_nil_of_mem

theorem isFractional_positional (d : Decimal) : IsFractional (d.positional true) := by
  unfold Decimal.positional
  split
  · refine ⟨fun c hc => ?_, by simp⟩
    rcases List.mem_append.1 hc with hc | hc
    · rcases List.mem_append.1 hc with hc | hc
      · exact isNumeric_of_mem_toDigits hc
      · exact isNumeric_of_mem_replicate hc
    · exact List.all_eq_true.1 (by decide : ['.', '0'].all isNumeric = true) c hc
  · have hpadded (k : Nat) : ∀ c ∈ List.replicate k '0' ++ d.digits, isNumeric c = true :=
      fun c hc => by
        rcases List.mem_append.1 hc with hc | hc
        · exact isNumeric_of_mem_replicate hc
        · exact isNumeric_of_mem_toDigits hc
    refine ⟨fun c hc => ?_, by simp⟩
    rcases List.mem_append.1 hc with hc | hc
    · exact hpadded _ c (List.mem_of_mem_take hc)
    · rcases List.mem_cons.1 hc with rfl | hc
      · decide
      · exact hpadded _ c (List.mem_of_mem_drop hc)

theorem isFractional_scientific (plusSign : Bool) (d : Decimal) :
    IsFractional (d.scientific plusSign) := by
  have hdigits : ∀ c ∈ d.digits, isNumeric c = true := fun c hc => isNumeric_of_mem_toDigits hc
  have hsign : ((if d.leading < 0 then ['-'] else if plusSign then ['+'] else []).all
      isNumeric) = true := by
    split
    · decide
    · split <;> decide
  refine ⟨fun c hc => ?_, by simp [Decimal.scientific]⟩
  rw [Decimal.scientific] at hc
  rcases List.mem_append.1 hc with hc | hc
  · rcases List.mem_append.1 hc with hc | hc
    · generalize d.digits = ds at hc hdigits
      split at hc
      · cases hc
      · exact hdigits c hc
      · rw [List.forall_mem_cons] at hdigits
        rcases List.mem_cons.1 hc with rfl | hc
        · exact hdigits.1
        · rcases List.mem_cons.1 hc with rfl | hc
          · decide
          · exact hdigits.2 c hc
    · rcases List.mem_cons.1 hc with rfl | hc
      · decide
      · exact List.all_eq_true.1 hsign c hc
  · exact isNumeric_of_mem_toDigits hc

theorem isFractional_unsigned (d : Double) : IsFractional (FloatFormat.json.unsigned d) := by
  unfold FloatFormat.unsigned
  split
  · exact isFractional_positional _
  · dsimp only
    split
    · exact isFractional_positional _
    · exact isFractional_scientific _ _

theorem isFractional_floatText {d : Double} (h : d.isFinite = true) : IsFractional (floatText d) := by
  have hlt : d.magnitude < Double.infinite := of_decide_eq_true h
  have hnan : d.isNaN = false := decide_eq_false (by omega)
  have hinf : d.isInfinite = false := decide_eq_false (by omega)
  obtain ⟨hnumeric, hmark⟩ := isFractional_unsigned d
  rw [floatText, if_pos h, FloatFormat.render, hnan, hinf]
  simp only [Bool.false_eq_true, if_false, String.toList_ofList]
  split
  · refine ⟨List.forall_mem_cons.2 ⟨by decide, hnumeric⟩, ?_⟩
    exact hmark.imp (List.mem_cons_of_mem _) (List.mem_cons_of_mem _)
  · exact ⟨hnumeric, hmark⟩

/-- **The text of a finite float is not read as anything but a float.** -/
theorem number?_floatText {d : Double} (h : d.isFinite = true) {j : Json}
    (hj : number? (floatText d) = some j) : ∃ d', j = .float d' := by
  obtain ⟨-, hmark⟩ := isFractional_floatText h
  rcases number?_eq_some hj with hfloat | ⟨-, hall⟩
  · exact hfloat
  · rcases hmark with hmark | hmark
    · exact absurd (hall _ hmark) (by decide)
    · exact absurd (hall _ hmark) (by decide)

end Token

end Json

end GraphQuery
