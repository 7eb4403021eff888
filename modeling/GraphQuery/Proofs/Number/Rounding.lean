import GraphQuery.Number.Double
import Mathlib.Algebra.Order.Group.Nat
import Mathlib.Tactic.Ring
/-!
# Integers rounded to floats

Rounding integers to floats keeps their order (`Double.totalKey_ofInt_mono`), but may bring
different integers together.  The total order of floats, on the other hand, tells any two of them
apart (`Double.totalCompare_eq_iff`).
-/

namespace GraphQuery

namespace Double

/-! ## Places in the total order -/

theorem toNat_ofParts {negative : Bool} {m : Nat} (h : m < 2 ^ 63) :
    (ofParts negative m).bits.toNat = if negative then 2 ^ 63 + m else m := by
  rw [ofParts, UInt64.toNat_ofNat_of_lt']
  · rfl
  · show _ < 2 ^ 64
    split <;> omega

theorem totalKey_eq (d : Double) : d.totalKey =
    if 2 ^ 63 ≤ d.bits.toNat then -1 - ((d.bits.toNat % 2 ^ 63 : Nat) : Int)
    else ((d.bits.toNat % 2 ^ 63 : Nat) : Int) := by
  simp only [totalKey, isNegative, decide_eq_true_eq]
  rfl

theorem totalKey_ofParts {negative : Bool} {m : Nat} (h : m < 2 ^ 63) :
    (ofParts negative m).totalKey = if negative then -1 - (m : Int) else m := by
  rw [totalKey_eq, toNat_ofParts h]
  cases negative
  · rw [if_neg Bool.false_ne_true, if_neg Bool.false_ne_true, if_neg (by omega)]
    omega
  · rw [if_pos rfl, if_pos rfl, if_pos (by omega)]
    omega

/-- **No two floats share a place in the total order.** -/
theorem totalKey_injective {a b : Double} (h : a.totalKey = b.totalKey) : a = b := by
  obtain ⟨a⟩ := a
  obtain ⟨b⟩ := b
  have ha := a.toNat_lt
  have hb := b.toNat_lt
  rw [totalKey_eq, totalKey_eq] at h
  rw [Double.mk.injEq, ← UInt64.toNat_inj]
  dsimp only at h
  split at h <;> split at h <;> omega

theorem totalCompare_eq_iff {a b : Double} : a.totalCompare b = .eq ↔ a = b := by
  rw [totalCompare, Std.compare_eq_iff_eq]
  exact ⟨totalKey_injective, fun h => h ▸ rfl⟩

/-! ## Rounding -/

theorem roundHalfEven_cases (num den : Nat) :
    2 * (num % den) < den ∧ roundHalfEven num den = num / den ∨
      2 * (num % den) = den ∧ roundHalfEven num den = num / den + num / den % 2 ∨
        den < 2 * (num % den) ∧ roundHalfEven num den = num / den + 1 := by
  unfold roundHalfEven
  cases h : compare (2 * (num % den)) den with
  | lt => exact .inl ⟨Nat.compare_eq_lt.1 h, rfl⟩
  | eq => exact .inr (.inl ⟨Nat.compare_eq_eq.1 h, rfl⟩)
  | gt => exact .inr (.inr ⟨Nat.compare_eq_gt.1 h, rfl⟩)

theorem roundHalfEven_bounds (num den : Nat) :
    num / den ≤ roundHalfEven num den ∧ roundHalfEven num den ≤ num / den + 1 := by
  rcases roundHalfEven_cases num den with h | h | h <;> omega

/-- **Rounding keeps the order.** -/
theorem roundHalfEven_mono {m n den : Nat} (h : m ≤ n) :
    roundHalfEven m den ≤ roundHalfEven n den := by
  have hm := roundHalfEven_bounds m den
  have hn := roundHalfEven_bounds n den
  rcases Nat.lt_or_eq_of_le (Nat.div_le_div_right h : m / den ≤ n / den) with hlt | heq
  · omega
  · -- where the quotients are the same, the remainders decide
    have hr : m % den ≤ n % den := by
      have hm := Nat.div_add_mod m den
      have hn := Nat.div_add_mod n den
      rw [heq] at hm
      omega
    rcases roundHalfEven_cases m den with hm | hm | hm <;>
      rcases roundHalfEven_cases n den with hn | hn | hn <;> omega

/-! ## Integers -/

def intMantissa (place n : Nat) : Nat :=
  roundHalfEven (n <<< (52 - place)) (1 <<< (place - 52))

theorem log2Ratio_one {n : Nat} (h : n ≠ 0) : log2Ratio n 1 = Nat.log2 n := by
  have hlog : Nat.log2 1 = 0 := by decide
  have hzero : (-(Nat.log2 n : Int)).toNat = 0 := by omega
  rw [log2Ratio, hlog]
  simp only [descale, Nat.cast_zero, sub_zero, hzero, Int.toNat_natCast, Nat.shiftLeft_zero,
    Nat.one_shiftLeft]
  exact if_neg (Nat.not_lt.2 (Nat.log2_self_le h))

theorem ofRatio_one {negative : Bool} {n : Nat} (h : n ≠ 0) : ofRatio negative n 1 = ofParts
    negative (min ((Nat.log2 n + 1022) * hidden + intMantissa (Nat.log2 n) n) infinite) := by
  have he : max ((Nat.log2 n : Int) - 52) lowestExponent = Nat.log2 n - 52 := by
    rw [lowestExponent]
    omega
  have hplace : ((Nat.log2 n : Int) - 52 - lowestExponent).toNat = Nat.log2 n + 1022 := by
    rw [lowestExponent]
    omega
  have hup : (-((Nat.log2 n : Int) - 52)).toNat = 52 - Nat.log2 n := by omega
  have hdown : ((Nat.log2 n : Int) - 52).toNat = Nat.log2 n - 52 := by omega
  rw [ofRatio, if_neg h, log2Ratio_one h]
  simp only [he, hplace, descale, hup, hdown, intMantissa]

theorem intMantissa_mono {place m n : Nat} (h : m ≤ n) :
    intMantissa place m ≤ intMantissa place n := by
  rw [intMantissa, intMantissa, Nat.shiftLeft_eq m, Nat.shiftLeft_eq n]
  exact roundHalfEven_mono (Nat.mul_le_mul_right _ h)

theorem intMantissa_bounds {n : Nat} (h : n ≠ 0) :
    hidden ≤ intMantissa (Nat.log2 n) n ∧ intMantissa (Nat.log2 n) n ≤ 2 * hidden := by
  have hlow := Nat.log2_self_le h
  have hhigh := Nat.lt_log2_self (n := n)
  have hb := roundHalfEven_bounds (n <<< (52 - Nat.log2 n)) (1 <<< (Nat.log2 n - 52))
  rw [← intMantissa, Nat.shiftLeft_eq, Nat.one_shiftLeft] at hb
  generalize Nat.log2 n = place at hlow hhigh hb ⊢
  have hshift : 2 ^ place * 2 ^ (52 - place) = hidden * 2 ^ (place - 52) := by
    rw [hidden, Nat.one_shiftLeft, ← Nat.pow_add, ← Nat.pow_add]
    exact congrArg (2 ^ ·) (by omega)
  have hl : hidden ≤ n * 2 ^ (52 - place) / 2 ^ (place - 52) := by
    rw [Nat.le_div_iff_mul_le (Nat.two_pow_pos _), ← hshift]
    exact Nat.mul_le_mul_right _ hlow
  have hh : n * 2 ^ (52 - place) / 2 ^ (place - 52) < 2 * hidden := by
    rw [Nat.div_lt_iff_lt_mul (Nat.two_pow_pos _), Nat.mul_assoc, ← hshift, ← Nat.mul_assoc,
      ← Nat.pow_succ']
    exact Nat.mul_lt_mul_of_pos_right hhigh (Nat.two_pow_pos _)
  omega

def intPattern (n : Nat) : Nat :=
  if n = 0 then 0
  else min ((Nat.log2 n + 1022) * hidden + intMantissa (Nat.log2 n) n) infinite

theorem ofInt_eq (i : Int) : ofInt i = ofParts (i < 0) (intPattern i.natAbs) := by
  rw [ofInt, intPattern]
  split
  · rename_i h
    rw [ofRatio, if_pos h]
  · rename_i h
    exact ofRatio_one h

theorem intPattern_mono {m n : Nat} (h : m ≤ n) : intPattern m ≤ intPattern n := by
  unfold intPattern
  split
  · exact Nat.zero_le _
  · rename_i hm
    have hn : n ≠ 0 := by omega
    have hbm := intMantissa_bounds hm
    have hbn := intMantissa_bounds hn
    rw [if_neg hn]
    refine min_le_min_right infinite ?_
    have hlog : Nat.log2 m ≤ Nat.log2 n :=
      (Nat.le_log2 hn).2 (Nat.le_trans (Nat.log2_self_le hm) h)
    rcases Nat.lt_or_eq_of_le hlog with hlt | heq
    · -- the higher place makes up for the smaller mantissa
      have := Nat.mul_le_mul_right hidden (Nat.add_le_add_right hlt 1022)
      rw [Nat.succ_add, Nat.succ_mul] at this
      omega
    · rw [heq]
      exact Nat.add_le_add_left (intMantissa_mono h) _

/-- **Integers rounded to floats keep their order.** -/
theorem totalKey_ofInt_mono {i j : Int} (h : i ≤ j) :
    (ofInt i).totalKey ≤ (ofInt j).totalKey := by
  have hlt (n : Nat) : intPattern n < 2 ^ 63 := by
    have hinf : infinite < 2 ^ 63 := by decide
    unfold intPattern
    split <;> omega
  rw [ofInt_eq, ofInt_eq, totalKey_ofParts (hlt _), totalKey_ofParts (hlt _)]
  simp only [decide_eq_true_eq]
  split <;> split
  · have := intPattern_mono (by omega : j.natAbs ≤ i.natAbs)
    omega
  · omega
  · omega
  · have := intPattern_mono (by omega : i.natAbs ≤ j.natAbs)
    omega

end Double

end GraphQuery
