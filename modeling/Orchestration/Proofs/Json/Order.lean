import Orchestration.Proofs.Binary64.Nearest

/-!
# The order of whole numbers

Whole numbers that fit a signed word are compared exactly. If one of two does not fit, both are
compared by the doubles nearest to them, so different numbers are taken for equal where one
double is nearest to both.

* `Comparison.Relates`: what an operator means for whole numbers.
* `Comparison.holds?_int`: what it is found to hold between.
* `Comparison.holds?_wholeNumbers`: when the two are the same.
-/

namespace Orchestration

/-- The operator holds between whole numbers. -/
def Comparison.Relates : Comparison → Int → Int → Prop
  | .lessThan, a, b => a < b
  | .lessThanEquals, a, b => a ≤ b
  | .equals, a, b => a = b
  | .greaterThanEquals, a, b => b ≤ a
  | .greaterThan, a, b => b < a

instance (op : Comparison) (a b : Int) : Decidable (op.Relates a b) :=
  match op with
  | .lessThan => inferInstanceAs (Decidable (a < b))
  | .lessThanEquals => inferInstanceAs (Decidable (a ≤ b))
  | .equals => inferInstanceAs (Decidable (a = b))
  | .greaterThanEquals => inferInstanceAs (Decidable (b ≤ a))
  | .greaterThan => inferInstanceAs (Decidable (b < a))

namespace Comparison

theorem admits_compare (op : Comparison) (a b : Int) :
    op.admits (Ord.compare a b) = decide (op.Relates a b) := by
  rcases lt_trichotomy a b with h | rfl | h
  · rw [compare_lt_iff_lt.mpr h]
    cases op <;> simp [admits, Relates, h, h.le, h.ne, h.not_gt, h.not_ge]
  · rw [compare_eq_iff_eq.mpr rfl]
    cases op <;> simp [admits, Relates]
  · rw [compare_gt_iff_gt.mpr h]
    cases op <;> simp [admits, Relates, h, h.le, h.ne', h.not_gt, h.not_ge]

/-- Two whole numbers are compared exactly if both fit a signed word, else by their doubles. -/
theorem holds?_int (op : Comparison) (a b : Int) :
    holds? (.int a) op (.int b) = some (decide (if Json.FitsSigned a ∧ Json.FitsSigned b
      then op.Relates a b
      else op.Relates (Binary64.ofInt a).steps (Binary64.ofInt b).steps)) := by
  rw [holds?, Json.order?, Json.orderNumbers?]
  · by_cases hFit : Json.FitsSigned a ∧ Json.FitsSigned b
    · simp only [if_pos hFit, admits_compare]
    · simp only [if_neg hFit, Binary64.compare, admits_compare]
  all_goals simp

/-- Operators tell numbers in different orders apart. -/
theorem relates_congr_iff {a b x y : Int} (hLess : a < b → x ≤ y) (hGreater : b < a → y ≤ x)
    (hEqual : a = b → x = y) :
    (∀ op : Comparison, op.Relates x y ↔ op.Relates a b) ↔ a = b ∨ x ≠ y := by
  constructor
  · intro h
    have hEquals := h .equals
    simp only [Relates] at hEquals
    tauto
  · intro h op
    cases op <;> simp only [Relates] <;> omega

section Integers

variable {a b : Int}

theorem natAbs_lt_of_range (ha : Json.minInt ≤ a ∧ a ≤ Json.maxInt) : a.natAbs < 2 ^ 64 := by
  simp only [Json.minInt, Json.maxInt] at ha
  omega

theorem ofInt_isNearest_of_range (ha : Json.minInt ≤ a ∧ a ≤ Json.maxInt) :
    (Binary64.ofInt a).IsNearest a := by
  refine Binary64.ofInt_isNearest ?_
  by_cases h0 : a.natAbs = 0
  · rw [h0]
    decide
  · have := (Nat.log2_lt h0).mpr (natAbs_lt_of_range ha)
    omega

/-- Numbers that are far enough apart have different doubles. -/
theorem steps_ofInt_ne (ha : Json.minInt ≤ a ∧ a ≤ Json.maxInt)
    (hb : Json.minInt ≤ b ∧ b ≤ Json.maxInt) (hApart : 2048 < (a - b).natAbs) :
    (Binary64.ofInt a).steps ≠ (Binary64.ofInt b).steps := by
  intro hSame
  have hFirst := Binary64.distance_ofInt_le (natAbs_lt_of_range ha)
  have hSecond := Binary64.distance_ofInt_le (natAbs_lt_of_range hb)
  have hUnit := Binary64.twoTo_pos 1074
  rw [Binary64.distance] at hFirst hSecond
  rw [hSame] at hFirst
  generalize twoTo 1074 = unit at *
  have hScaled : 2048 * unit < (a * unit - b * unit).natAbs := by
    rw [← Int.sub_mul, Int.natAbs_mul, Int.natAbs_natCast]
    exact Nat.mul_lt_mul_of_pos_right hApart hUnit
  omega

/-- The verdict on two whole numbers is that on the numbers themselves if both fit a signed word,
else that on their doubles, which are the nearest ones, a tie going to the even mantissa. So all
verdicts are exact if and only if both numbers fit, or they are equal, or their doubles differ, as
they do when the numbers are more than 2048 apart. -/
theorem holds?_wholeNumbers (ha : Json.minInt ≤ a ∧ a ≤ Json.maxInt)
    (hb : Json.minInt ≤ b ∧ b ≤ Json.maxInt) :
    ((Binary64.ofInt a).IsNearest a ∧ (Binary64.ofInt b).IsNearest b) ∧
    (∀ op, holds? (.int a) op (.int b) = some (decide (if Json.FitsSigned a ∧ Json.FitsSigned b
      then op.Relates a b
      else op.Relates (Binary64.ofInt a).steps (Binary64.ofInt b).steps))) ∧
    ((∀ op, holds? (.int a) op (.int b) = some (decide (op.Relates a b))) ↔
      (Json.FitsSigned a ∧ Json.FitsSigned b) ∨ a = b ∨
        (Binary64.ofInt a).steps ≠ (Binary64.ofInt b).steps) ∧
    (2048 < (a - b).natAbs → (Binary64.ofInt a).steps ≠ (Binary64.ofInt b).steps) := by
  have hNearest := ofInt_isNearest_of_range ha
  have hNearest' := ofInt_isNearest_of_range hb
  refine ⟨⟨hNearest, hNearest'⟩, fun op => holds?_int op a b, ?_, steps_ofInt_ne ha hb⟩
  by_cases hFit : Json.FitsSigned a ∧ Json.FitsSigned b
  · exact iff_of_true (fun op => by simp only [holds?_int, if_pos hFit]) (.inl hFit)
  · rw [or_iff_right hFit,
      ← relates_congr_iff (hNearest.le_of_lt hNearest') (hNearest'.le_of_lt hNearest)
        fun hEq => by rw [hEq]]
    refine forall_congr' fun op => ?_
    simp only [holds?_int, if_neg hFit, Option.some.injEq, decide_eq_decide]

/-- The two numbers after the largest that fits share a double, though they are not equal. -/
theorem holds?_wholeNumbers_beyondSigned :
    (Json.minInt ≤ Json.maxSigned + 1 ∧ Json.maxSigned + 1 ≤ Json.maxInt) ∧
    (Json.minInt ≤ Json.maxSigned + 2 ∧ Json.maxSigned + 2 ≤ Json.maxInt) ∧
    ¬ ∀ op, holds? (.int (Json.maxSigned + 1)) op (.int (Json.maxSigned + 2)) =
      some (decide (op.Relates (Json.maxSigned + 1) (Json.maxSigned + 2))) := by
  have hFirst : Json.minInt ≤ Json.maxSigned + 1 ∧ Json.maxSigned + 1 ≤ Json.maxInt := by decide
  have hSecond : Json.minInt ≤ Json.maxSigned + 2 ∧ Json.maxSigned + 2 ≤ Json.maxInt := by decide
  refine ⟨hFirst, hSecond, ?_⟩
  rw [(holds?_wholeNumbers hFirst hSecond).2.2.1]
  decide +kernel

end Integers

/-- Whole numbers are compared as they are. -/
def ExactOnWholeNumbers : Prop :=
  ∀ a b : Int, Json.minInt ≤ a ∧ a ≤ Json.maxInt → Json.minInt ≤ b ∧ b ≤ Json.maxInt →
    ∀ op, holds? (.int a) op (.int b) = some (decide (op.Relates a b))

theorem not_exactOnWholeNumbers : ¬ ExactOnWholeNumbers := by
  intro hExact
  have hEquals := hExact (2 ^ 63) (2 ^ 63 + 1) (by decide) (by decide) .equals
  exact absurd hEquals (by decide +kernel)

end Comparison

end Orchestration
