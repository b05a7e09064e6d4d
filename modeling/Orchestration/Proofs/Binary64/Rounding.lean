import Mathlib.Algebra.Order.Ring.Nat
import Orchestration.Json.Order

/-!
# Doubles nearest to whole numbers

The double nearest to a whole number of `l + 1` bits is `significand · 2 ^ (l - 52)`, where the
significand has 53 bits (`Binary64.magnitude_ofInt`). Below `2 ^ 53` this is the number itself, and
no other whole number is rounded to it: such numbers are told apart by their doubles
(`Binary64.tellsApart_of_lt`).
-/

namespace Orchestration

namespace Binary64

/-! ## Powers of two -/

theorem twoTo_add (m n : Nat) : twoTo (m + n) = twoTo m * twoTo n := Nat.pow_add 2 m n

theorem twoTo_pos (n : Nat) : 0 < twoTo n := Nat.pow_pos (by decide)

theorem twoTo_le {m n : Nat} (h : m ≤ n) : twoTo m ≤ twoTo n := Nat.pow_le_pow_right (by decide) h

theorem mantissaEnd_eq : mantissaEnd = leadingBit * twoTo 1 := rfl

/-! ## Rounding quotients -/

theorem roundHalfEven_scale (num den : Nat) {c : Nat} (hc : 0 < c) :
    roundHalfEven (num * c) (den * c) = roundHalfEven num den := by
  have hTwice : 2 * (num * c % (den * c)) = 2 * (num % den) * c := by
    rw [Nat.mul_mod_mul_right, Nat.mul_assoc]
  unfold roundHalfEven
  simp only [Nat.mul_div_mul_right num den hc, hTwice, Nat.mul_lt_mul_right hc]

theorem roundHalfEven_mul_self (q : Nat) {den : Nat} (hDen : 0 < den) :
    roundHalfEven (q * den) den = q := by
  simp [roundHalfEven, Nat.mul_div_cancel q hDen, hDen]

theorem le_roundHalfEven (num den : Nat) : num / den ≤ roundHalfEven num den := by
  unfold roundHalfEven
  dsimp only
  split_ifs <;> omega

theorem roundHalfEven_le (num den : Nat) : roundHalfEven num den ≤ num / den + 1 := by
  unfold roundHalfEven
  dsimp only
  split_ifs <;> omega

/-! ## Significands -/

/-- The whole number rounded to 53 bits, in units of its last bit kept. -/
def significand (n : Nat) : Nat := roundHalfEven (n * twoTo 52) (twoTo n.log2)

theorem leadingBit_le_significand {n : Nat} (hn : n ≠ 0) : leadingBit ≤ significand n := by
  refine Nat.le_trans ?_ (le_roundHalfEven _ _)
  rw [Nat.le_div_iff_mul_le (twoTo_pos _), Nat.mul_comm n]
  exact Nat.mul_le_mul_left (twoTo 52) (Nat.log2_self_le hn)

theorem significand_le (n : Nat) : significand n ≤ mantissaEnd := by
  refine Nat.le_trans (roundHalfEven_le _ _) ?_
  have hLt : n * twoTo 52 / twoTo n.log2 < mantissaEnd := by
    rw [Nat.div_lt_iff_lt_mul (twoTo_pos _)]
    have h : n < twoTo (n.log2 + 1) := Nat.lt_log2_self
    have hEnd : mantissaEnd * twoTo n.log2 = twoTo (n.log2 + 1) * twoTo 52 := by
      rw [twoTo_add n.log2 1, Nat.mul_comm (twoTo n.log2), Nat.mul_assoc,
        Nat.mul_comm (twoTo n.log2), ← Nat.mul_assoc]
      rfl
    rw [hEnd]
    exact Nat.mul_lt_mul_of_pos_right h (twoTo_pos 52)
  omega

/-- Numbers of at most 53 bits are kept. -/
theorem significand_eq {n : Nat} (h0 : n ≠ 0) (hn : n < mantissaEnd) :
    significand n * twoTo (n.log2 + 1022) = n * twoTo 1074 := by
  have hLog : n.log2 ≤ 52 := Nat.lt_succ_iff.mp ((Nat.log2_lt h0).mpr hn)
  have hShift : twoTo 52 = twoTo (52 - n.log2) * twoTo n.log2 := by
    rw [← twoTo_add, Nat.sub_add_cancel hLog]
  have hExact : significand n = n * twoTo (52 - n.log2) := by
    rw [significand, hShift, ← Nat.mul_assoc]
    exact roundHalfEven_mul_self _ (twoTo_pos _)
  rw [hExact, Nat.mul_assoc, ← twoTo_add, show 52 - n.log2 + (n.log2 + 1022) = 1074 by omega]

/-- Numbers of more than 53 bits do not fall below those of at most 53 bits. -/
theorem le_significand_mul {n : Nat} (h0 : n ≠ 0) (hn : mantissaEnd ≤ n) :
    mantissaEnd * twoTo 1074 ≤ significand n * twoTo (n.log2 + 1022) := by
  have hLog : 53 ≤ n.log2 := (Nat.le_log2 h0).mpr hn
  have hEnd : mantissaEnd * twoTo 1074 = leadingBit * twoTo (53 + 1022) := by
    rw [show 53 + 1022 = 1 + 1074 by rfl, twoTo_add 1, ← Nat.mul_assoc, ← mantissaEnd_eq]
  rw [hEnd]
  exact Nat.mul_le_mul (leadingBit_le_significand h0) (twoTo_le (by omega))

/-! ## The nearest double -/

theorem exponentFor_mul {n : Nat} (hn : n ≠ 0) :
    exponentFor (n * twoTo 1074 / 1) = n.log2 + 1022 := by
  have hLog : (n * twoTo 1074).log2 = n.log2 + 1074 := by
    rw [Nat.log2_eq_iff (Nat.mul_ne_zero hn (twoTo_pos 1074).ne')]
    constructor
    · exact (twoTo_add n.log2 1074).trans_le (Nat.mul_le_mul_right _ (Nat.log2_self_le hn))
    · have h : n < twoTo (n.log2 + 1) := Nat.lt_log2_self
      refine Nat.lt_of_lt_of_eq (Nat.mul_lt_mul_of_pos_right h (twoTo_pos 1074)) ?_
      rw [← twoTo_add, Nat.add_right_comm]
      rfl
  rw [Nat.div_one, exponentFor, hLog]
  omega

theorem ofParts?_eq_some (negative : Bool) {mantissa exponent : Nat} (hm : mantissa < mantissaEnd)
    (he : exponent ≤ 2045) (hn : leadingBit ≤ mantissa) :
    ∃ x, ofParts? negative mantissa exponent = some x ∧ x.negative = negative ∧
      x.magnitude = mantissa * twoTo exponent :=
  ⟨⟨negative, mantissa, exponent, hm, he, .inr hn⟩, by simp [ofParts?, hm, he, hn], rfl, rfl⟩

/-- The double nearest to a whole number that is not zero. -/
theorem nearest_one_eq_some {negative : Bool} {n : Nat} (hn : n ≠ 0) (hLog : n.log2 ≤ 1022) :
    ∃ x, nearest negative n 1 = some x ∧ x.negative = negative ∧
      x.magnitude = significand n * twoTo (n.log2 + 1022) := by
  have hMantissa : roundHalfEven (n * twoTo 1074) (1 * twoTo (n.log2 + 1022)) = significand n := by
    rw [Nat.one_mul, twoTo_add n.log2, show (1074 : Nat) = 52 + 1022 by rfl, twoTo_add 52,
      ← Nat.mul_assoc]
    exact roundHalfEven_scale _ _ (twoTo_pos 1022)
  unfold nearest
  simp only [exponentFor_mul hn, hMantissa]
  split
  · rename_i hEnd
    have hExponent : n.log2 + 1022 + 1 ≤ 2045 := by omega
    obtain ⟨x, hx, hNegative, hMagnitude⟩ :=
      ofParts?_eq_some negative (by decide : leadingBit < mantissaEnd) hExponent (Nat.le_refl _)
    refine ⟨x, hx, hNegative, hMagnitude.trans ?_⟩
    rw [hEnd, twoTo_add _ 1, Nat.mul_comm (twoTo (n.log2 + 1022)), ← Nat.mul_assoc,
      ← mantissaEnd_eq]
  · rename_i hEnd
    exact ofParts?_eq_some negative (Nat.lt_of_le_of_ne (significand_le n) hEnd) (by omega)
      (leadingBit_le_significand hn)

/-! ## Whole numbers -/

theorem ofInt_zero : ofInt 0 = zero false := by
  have hMantissa :
      roundHalfEven (0 * twoTo 1074) (1 * twoTo (exponentFor (0 * twoTo 1074 / 1))) = 0 := by
    rw [Nat.zero_mul]
    rfl
  rw [ofInt, Int.natAbs_zero, nearest]
  simp only [Nat.zero_mul] at hMantissa ⊢
  rw [hMantissa]
  rfl

/-- The double nearest to a whole number of at most 1023 bits. -/
theorem magnitude_ofInt {n : Int} (hn : n ≠ 0) (hLog : n.natAbs.log2 ≤ 1022) :
    (ofInt n).negative = decide (n < 0) ∧
      (ofInt n).magnitude = significand n.natAbs * twoTo (n.natAbs.log2 + 1022) := by
  obtain ⟨x, hx, hNegative, hMagnitude⟩ :=
    @nearest_one_eq_some (decide (n < 0)) _ (Int.natAbs_ne_zero.mpr hn) hLog
  rw [ofInt, hx]
  exact ⟨hNegative, hMagnitude⟩

/-- Whole numbers of at most 53 bits are doubles. -/
theorem steps_ofInt_of_lt {n : Int} (hn : n.natAbs < mantissaEnd) :
    (ofInt n).steps = n * (twoTo 1074 : Nat) := by
  by_cases h0 : n = 0
  · rw [h0, ofInt_zero, Int.zero_mul]
    rfl
  · have hAbs : n.natAbs ≠ 0 := Int.natAbs_ne_zero.mpr h0
    have hLog : n.natAbs.log2 ≤ 52 := Nat.lt_succ_iff.mp ((Nat.log2_lt hAbs).mpr hn)
    obtain ⟨hNegative, hMagnitude⟩ := magnitude_ofInt h0 (by omega)
    rw [steps, hNegative, hMagnitude, significand_eq hAbs hn]
    generalize twoTo 1074 = unit
    by_cases hSign : n < 0
    · rw [if_pos (by simpa using hSign), Int.natCast_mul, Int.ofNat_natAbs_of_nonpos (by omega)]
      rw [Int.neg_mul, Int.neg_neg]
    · rw [if_neg (by simpa using hSign), Int.natCast_mul, Int.natAbs_of_nonneg (by omega)]

/-- Whole numbers of more than 53 bits have doubles beyond all of those, on their side of zero. -/
theorem steps_ofInt_of_le {n : Int} (hLog : n.natAbs.log2 ≤ 1022) (hn : mantissaEnd ≤ n.natAbs) :
    if n < 0 then (ofInt n).steps ≤ -(mantissaEnd * twoTo 1074 : Nat)
    else ((mantissaEnd * twoTo 1074 : Nat) : Int) ≤ (ofInt n).steps := by
  have h0 : n.natAbs ≠ 0 := by
    intro h
    rw [h] at hn
    exact absurd hn (by decide)
  obtain ⟨hNegative, hMagnitude⟩ := magnitude_ofInt (Int.natAbs_ne_zero.mp h0) hLog
  have hLe := le_significand_mul h0 hn
  rw [← hMagnitude] at hLe
  rw [steps, hNegative]
  generalize mantissaEnd * twoTo 1074 = least at hLe
  simp only [decide_eq_true_eq]
  split <;> omega

/-! ## Order -/

/-- Its double tells the number from all other whole numbers that fit a signed word. -/
def TellsApart (k : Int) : Prop :=
  ∀ n, Json.FitsSigned n → (ofInt n).compare (ofInt k) = Ord.compare n k

theorem compare_congr {a b c d : Int} (hLt : a < b ↔ c < d) (hGt : b < a ↔ d < c) :
    Ord.compare a b = Ord.compare c d := by
  rcases lt_trichotomy c d with h | h | h
  · rw [compare_lt_iff_lt.mpr h, compare_lt_iff_lt.mpr (hLt.mpr h)]
  · have hEq : a = b := by omega
    rw [compare_eq_iff_eq.mpr h, compare_eq_iff_eq.mpr hEq]
  · rw [compare_gt_iff_gt.mpr h, compare_gt_iff_gt.mpr (hGt.mpr h)]

/-- Numbers below `2 ^ 53` are told apart. -/
theorem tellsApart_of_lt {k : Int} (hk : k.natAbs < mantissaEnd) : TellsApart k := by
  intro n hn
  have hUnit : (0 : Int) < (twoTo 1074 : Nat) := Int.natCast_pos.mpr (twoTo_pos 1074)
  rw [compare, steps_ofInt_of_lt hk]
  rcases Nat.lt_or_ge n.natAbs mantissaEnd with hSmall | hLarge
  · rw [steps_ofInt_of_lt hSmall]
    exact compare_congr (Int.mul_lt_mul_right hUnit) (Int.mul_lt_mul_right hUnit)
  · have hLog : n.natAbs.log2 ≤ 1022 := by
      have hFits : n.natAbs < 2 ^ 64 := by
        have := hn.1
        have := hn.2
        simp only [Json.minInt, Json.maxSigned] at *
        omega
      have := (Nat.log2_lt (by rw [mantissaEnd] at hLarge; omega)).mpr hFits
      omega
    have hSteps := steps_ofInt_of_le hLog hLarge
    have hUpper : k * (twoTo 1074 : Nat) < ((mantissaEnd * twoTo 1074 : Nat) : Int) := by
      rw [Int.natCast_mul]
      exact Int.mul_lt_mul_of_pos_right (by omega) hUnit
    have hLower : -((mantissaEnd * twoTo 1074 : Nat) : Int) < k * (twoTo 1074 : Nat) := by
      rw [Int.natCast_mul, ← Int.neg_mul]
      exact Int.mul_lt_mul_of_pos_right (by omega) hUnit
    generalize mantissaEnd * twoTo 1074 = least at *
    generalize k * (twoTo 1074 : Nat) = steps at *
    split at hSteps
    · exact compare_congr (by omega) (by omega)
    · exact compare_congr (by omega) (by omega)

end Binary64

end Orchestration
