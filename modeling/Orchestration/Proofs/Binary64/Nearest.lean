import Orchestration.Proofs.Binary64.Rounding

/-!
# Rounding to nearest, ties to even

`Binary64.IsNearest` says what the double of a whole number has to be, without saying how it is
found: no other double is nearer, and if another one is as near, the mantissa is even.

* `Binary64.ofInt_isNearest`: the double of a whole number is nearest to it.
* `Binary64.IsNearest.le_of_lt`: so rounding never turns the order of two whole numbers round.
* `Binary64.distance_ofInt_le`: whole numbers of at most 64 bits are off by at most 1024.
-/

namespace Orchestration

namespace Binary64

/-- How far the double is from the whole number, in steps. -/
def distance (x : Binary64) (n : Int) : Nat := (x.steps - n * (twoTo 1074 : Nat)).natAbs

/-- No double is nearer to the whole number, and if another one is as near, the mantissa is even. -/
structure IsNearest (x : Binary64) (n : Int) : Prop where
  nearest : ∀ y : Binary64, x.distance n ≤ y.distance n
  even : ∀ y : Binary64, y.distance n = x.distance n → y.steps ≠ x.steps → x.mantissa % 2 = 0

/-! ## Quotients -/

section Quotient

variable (num : Nat) {den : Nat} (hDen : 0 < den)
include hDen

/-- The rounded quotient is off by half a divisor at most, and if by half, it is even. -/
theorem roundHalfEven_half : 2 * ((roundHalfEven num den : Int) * den - num).natAbs ≤ den ∧
    (2 * ((roundHalfEven num den : Int) * den - num).natAbs = den →
      roundHalfEven num den % 2 = 0) := by
  have hSum := Nat.div_add_mod' num den
  have hRest := Nat.mod_lt num hDen
  unfold roundHalfEven
  dsimp only
  generalize num / den = q at *
  generalize num % den = r at *
  have hInt : (num : Int) = q * den + r := by exact_mod_cast hSum.symm
  split_ifs <;> push_cast [Int.add_mul, Int.one_mul] <;> omega

/-- No multiple is nearer to the dividend, and if another one is as near, the
rounded quotient is even. -/
theorem roundHalfEven_nearest (k : Int) :
    ((roundHalfEven num den : Int) * den - num).natAbs ≤ (k * den - num).natAbs ∧
      (k ≠ roundHalfEven num den →
        (k * den - num).natAbs = ((roundHalfEven num den : Int) * den - num).natAbs →
        roundHalfEven num den % 2 = 0) := by
  obtain ⟨hHalf, hEven⟩ := roundHalfEven_half num hDen
  by_cases hSame : k = roundHalfEven num den
  · rw [hSame]
    exact ⟨Nat.le_refl _, fun h => absurd rfl h⟩
  · -- Different multiples are apart by the divisor, so the other one is off by half of it or more.
    have hApart : den ≤ (k * den - (roundHalfEven num den : Int) * den).natAbs := by
      rw [← Int.sub_mul, Int.natAbs_mul, Int.natAbs_natCast]
      exact Nat.le_mul_of_pos_left den (Int.natAbs_pos.mpr (sub_ne_zero.mpr hSame))
    exact ⟨by omega, fun _ hTie => hEven (by omega)⟩

end Quotient

/-! ## The grid of doubles -/

/-- From an exponent on, doubles are multiples of its power of two; all others lie
below its least mantissa. -/
theorem magnitude_multiple_or_lt (y : Binary64) (exponent : Nat) :
    (∃ k, y.magnitude = k * twoTo exponent) ∨ y.magnitude < leadingBit * twoTo exponent := by
  rcases Nat.lt_or_ge y.exponent exponent with hLess | hGreater
  · have hMantissa := Nat.mul_lt_mul_of_pos_right y.mantissa_lt (twoTo_pos y.exponent)
    rw [mantissaEnd_eq, Nat.mul_assoc, ← twoTo_add, Nat.add_comm 1] at hMantissa
    exact .inr (Nat.lt_of_lt_of_le hMantissa (Nat.mul_le_mul_left _ (twoTo_le hLess)))
  · refine .inl ⟨y.mantissa * twoTo (y.exponent - exponent), ?_⟩
    rw [magnitude, Nat.mul_assoc, ← twoTo_add, Nat.sub_add_cancel hGreater]

/-- A double whose significand is even has an even mantissa. -/
theorem mantissa_even {x : Binary64} {digits exponent : Nat}
    (hx : x.magnitude = digits * twoTo exponent) (hHigh : digits ≤ mantissaEnd)
    (hEven : digits % 2 = 0) :
    x.mantissa % 2 = 0 := by
  rw [magnitude] at hx
  rcases Nat.lt_or_ge exponent x.exponent with hLess | hGreater
  · -- Then the digits are twice the least mantissa, which is even.
    have hNormal : leadingBit ≤ x.mantissa := x.normal.resolve_left (by omega)
    rw [show x.exponent = (x.exponent - exponent - 1) + 1 + exponent by omega, twoTo_add _ exponent,
      twoTo_add _ 1, ← Nat.mul_assoc] at hx
    have hDigits := Nat.eq_of_mul_eq_mul_right (twoTo_pos exponent) hx
    have hOne : 1 ≤ twoTo (x.exponent - exponent - 1) := twoTo_pos _
    have hTwice : x.mantissa * 2 ≤ digits := by
      rw [← hDigits]
      exact Nat.mul_le_mul_left _ (Nat.le_mul_of_pos_left 2 hOne)
    have hLeast : x.mantissa = leadingBit := by
      rw [mantissaEnd] at hHigh
      rw [leadingBit] at hNormal ⊢
      omega
    rw [hLeast]
    rfl
  · rw [show exponent = (exponent - x.exponent) + x.exponent by omega, twoTo_add _ x.exponent,
      ← Nat.mul_assoc] at hx
    rw [Nat.eq_of_mul_eq_mul_right (twoTo_pos x.exponent) hx, Nat.mul_mod, hEven, Nat.zero_mul]

/-! ## Whole numbers -/

/-- The steps of a double, counted away from zero on the side of the whole number. -/
def towards (x : Binary64) (n : Int) : Int := if n < 0 then -x.steps else x.steps

theorem distance_eq (x : Binary64) (n : Int) :
    x.distance n = (x.towards n - (n.natAbs * twoTo 1074 : Nat)).natAbs := by
  rw [distance, towards, Int.natCast_mul]
  generalize ((twoTo 1074 : Nat) : Int) = unit
  split
  · rename_i hSign
    rw [Int.ofNat_natAbs_of_nonpos (by omega), Int.neg_mul]
    omega
  · rename_i hSign
    rw [Int.natAbs_of_nonneg (by omega)]

theorem towards_multiple_or_lt (y : Binary64) (n : Int) (exponent : Nat) :
    (∃ k : Int, y.towards n = k * (twoTo exponent : Nat)) ∨
      y.towards n < ((leadingBit * twoTo exponent : Nat) : Int) := by
  have hSteps : y.towards n = y.magnitude ∨ y.towards n = -(y.magnitude : Int) := by
    unfold towards steps
    split_ifs <;> simp
  rcases magnitude_multiple_or_lt y exponent with ⟨k, hk⟩ | hLess
  · rw [hk, Int.natCast_mul, ← Int.neg_mul] at hSteps
    exact .inl (hSteps.elim (fun h => ⟨_, h⟩) fun h => ⟨_, h⟩)
  · exact .inr (by omega)

/-- The significand is the quotient in steps, rounded. -/
theorem roundHalfEven_eq_significand (n : Nat) :
    roundHalfEven (n * twoTo 1074) (twoTo (n.log2 + 1022)) = significand n := by
  rw [show 1074 = 52 + 1022 by rfl, twoTo_add, twoTo_add, ← Nat.mul_assoc]
  exact roundHalfEven_scale _ _ (twoTo_pos 1022)

theorem towards_eq_magnitude {x : Binary64} {n : Int} (hSign : x.negative = decide (n < 0)) :
    x.towards n = x.magnitude := by
  unfold towards steps
  rw [hSign]
  by_cases hNegative : n < 0 <;> simp [hNegative]

/-- A double on the side of the whole number, with the significand rounded, is nearest to it. -/
theorem isNearest_of_magnitude {x : Binary64} {n : Int} (hn : n ≠ 0)
    (hSign : x.negative = decide (n < 0))
    (hMagnitude : x.magnitude = significand n.natAbs * twoTo (n.natAbs.log2 + 1022)) :
    x.IsNearest n := by
  have hx := towards_eq_magnitude hSign
  have hLeast : leadingBit * twoTo (n.natAbs.log2 + 1022) ≤ n.natAbs * twoTo 1074 := by
    have hLog := Nat.log2_self_le (Int.natAbs_ne_zero.mpr hn)
    calc leadingBit * twoTo (n.natAbs.log2 + 1022)
        = twoTo n.natAbs.log2 * twoTo 1074 := by
          rw [show leadingBit = twoTo 52 by rfl, ← twoTo_add, ← twoTo_add,
            show 52 + (n.natAbs.log2 + 1022) = n.natAbs.log2 + 1074 by omega]
      _ ≤ n.natAbs * twoTo 1074 := Nat.mul_le_mul_right _ hLog
  have hRounded := roundHalfEven_nearest (n.natAbs * twoTo 1074) (twoTo_pos (n.natAbs.log2 + 1022))
  rw [roundHalfEven_eq_significand, ← Int.natCast_mul, ← hMagnitude, ← hx] at hRounded
  -- A double that is no multiple lies beyond the least mantissa, which is one.
  have hOther : ∀ y : Binary64, x.distance n < y.distance n ∨
      ∃ k : Int, y.towards n = k * (twoTo (n.natAbs.log2 + 1022) : Nat) := by
    intro y
    rcases towards_multiple_or_lt y n (n.natAbs.log2 + 1022) with hMultiple | hLess
    · exact .inr hMultiple
    · have hBound := (hRounded leadingBit).1
      rw [← Int.natCast_mul] at hBound
      rw [distance_eq, distance_eq]
      omega
  refine ⟨fun y => ?_, fun y hTie hSteps => ?_⟩
  · rcases hOther y with hLess | ⟨k, hk⟩
    · exact Nat.le_of_lt hLess
    · rw [distance_eq, distance_eq, hk]
      exact (hRounded k).1
  · rcases hOther y with hLess | ⟨k, hk⟩
    · omega
    · rw [distance_eq, distance_eq, hk] at hTie
      refine mantissa_even hMagnitude (significand_le _) ((hRounded k).2 ?_ hTie)
      rintro rfl
      rw [← Int.natCast_mul, ← hMagnitude, ← hx] at hk
      unfold towards at hk
      split at hk <;> omega

theorem distance_zero (x : Binary64) : x.distance 0 = x.steps.natAbs := by
  rw [distance, Int.zero_mul, Int.sub_zero]

/-- The double of a whole number is nearest to it. -/
theorem ofInt_isNearest {n : Int} (hLog : n.natAbs.log2 ≤ 1022) : (ofInt n).IsNearest n := by
  by_cases hn : n = 0
  · have hZero : (ofInt n).steps = 0 := by
      rw [hn, ofInt_zero]
      rfl
    refine ⟨fun y => ?_, fun y hTie hSteps => ?_⟩
    · rw [hn, distance_zero, ← hn, hZero]
      exact Nat.zero_le _
    · rw [hn, distance_zero, distance_zero, ← hn, hZero, Int.natAbs_zero, Int.natAbs_eq_zero]
        at hTie
      exact absurd (hTie.trans hZero.symm) hSteps
  · obtain ⟨hSign, hMagnitude⟩ := magnitude_ofInt hn hLog
    exact isNearest_of_magnitude hn hSign hMagnitude

/-- Rounding keeps the order of whole numbers, or makes them equal. -/
theorem IsNearest.le_of_lt {x y : Binary64} {a b : Int} (hx : x.IsNearest a) (hy : y.IsNearest b)
    (h : a < b) : x.steps ≤ y.steps := by
  -- Otherwise each would be nearer to the other number.
  have hUnit : (0 : Int) < (twoTo 1074 : Nat) := Int.natCast_pos.mpr (twoTo_pos 1074)
  have hScaled := Int.mul_lt_mul_of_pos_right h hUnit
  have hFirst := hx.nearest y
  have hSecond := hy.nearest x
  simp only [distance] at hFirst hSecond
  omega

/-- A whole number of at most 64 bits is off by at most 1024. -/
theorem distance_ofInt_le {n : Int} (hn : n.natAbs < 2 ^ 64) :
    (ofInt n).distance n ≤ 1024 * twoTo 1074 := by
  by_cases h0 : n = 0
  · have hSteps : (zero false).steps = 0 := rfl
    rw [h0, ofInt_zero, distance_zero, hSteps, Int.natAbs_zero]
    exact Nat.zero_le _
  · have hLog : n.natAbs.log2 ≤ 63 :=
      Nat.lt_succ_iff.mp ((Nat.log2_lt (Int.natAbs_ne_zero.mpr h0)).mpr hn)
    obtain ⟨hSign, hMagnitude⟩ := magnitude_ofInt h0 (by omega)
    have hHalf := (roundHalfEven_half (n.natAbs * twoTo 1074) (twoTo_pos (n.natAbs.log2 + 1022))).1
    rw [roundHalfEven_eq_significand, ← Int.natCast_mul, ← hMagnitude, ← towards_eq_magnitude hSign,
      ← distance_eq] at hHalf
    have hUnit : twoTo (n.natAbs.log2 + 1022) ≤ 2048 * twoTo 1074 := by
      rw [show 2048 = twoTo 11 by rfl, ← twoTo_add]
      exact twoTo_le (by omega)
    omega

end Binary64

end Orchestration
