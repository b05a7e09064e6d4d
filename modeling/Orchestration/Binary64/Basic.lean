/-!
# Finite double-precision numbers

A finite double is a sign and a natural number of steps `mantissa · 2 ^ exponent`, where one step is
`2 ^ (-1074)`. Every such number is an exact integer multiple of one step (`Binary64.steps`), so
order and rounding are decided in exact integer arithmetic.

* `Binary64.nearest` rounds a quotient of naturals to the nearest double, a tie to the even
  mantissa.
* `Binary64.compare` orders doubles by `steps`; the two zeros are equal under it.
-/

namespace Orchestration

def twoTo (n : Nat) : Nat := Nat.pow 2 n

def tenTo (n : Nat) : Nat := Nat.pow 10 n

/-- The first number that is too large for a mantissa: `2 ^ 53`. -/
def mantissaEnd : Nat := 9007199254740992

/-- The least mantissa whose leading bit is set: `2 ^ 52`. -/
def leadingBit : Nat := 4503599627370496

/-- A finite double: the number `± mantissa · 2 ^ exponent` steps of `2 ^ (-1074)`. -/
structure Binary64 where
  negative : Bool
  mantissa : Nat
  exponent : Nat
  mantissa_lt : mantissa < mantissaEnd
  exponent_le : exponent ≤ 2045
  /-- Each value has one form: above the lowest exponent the leading bit of the mantissa is set. -/
  normal : exponent = 0 ∨ leadingBit ≤ mantissa
deriving DecidableEq

namespace Binary64

instance : Inhabited Binary64 := ⟨⟨false, 0, 0, by decide, by decide, .inl rfl⟩⟩

def zero (negative : Bool) : Binary64 := ⟨negative, 0, 0, by decide, by decide, .inl rfl⟩

/-- The distance from zero, in steps of `2 ^ (-1074)`. -/
def magnitude (x : Binary64) : Nat := x.mantissa * twoTo x.exponent

/-- The value in steps of `2 ^ (-1074)`. -/
def steps (x : Binary64) : Int :=
  if x.negative then -(x.magnitude : Int) else x.magnitude

def neg (x : Binary64) : Binary64 := { x with negative := !x.negative }

def isZero (x : Binary64) : Bool := x.mantissa == 0

/-- Order by value; the two zeros are equal. -/
def compare (x y : Binary64) : Ordering := Ord.compare x.steps y.steps

/-! ## Rounding -/

/-- The natural number nearest to `num / den`; a tie goes to the even one. -/
def roundHalfEven (num den : Nat) : Nat :=
  let q := num / den
  let twice := 2 * (num % den)
  if twice < den then q
  else if den < twice then q + 1
  else if q % 2 = 0 then q else q + 1

/-- The double with this mantissa and exponent, if they are in range and in normal form. -/
def ofParts? (negative : Bool) (mantissa exponent : Nat) : Option Binary64 :=
  if hm : mantissa < mantissaEnd then
    if he : exponent ≤ 2045 then
      if hn : exponent = 0 ∨ leadingBit ≤ mantissa then
        some ⟨negative, mantissa, exponent, hm, he, hn⟩
      else none
    else none
  else none

/-- The least exponent at which `steps` fits into 53 bits. -/
def exponentFor (steps : Nat) : Nat := (steps.log2 + 1) - 53

/-- The double nearest to `num / den`, a tie to the even mantissa; `none` beyond the largest double.
A mantissa rounded up to `2 ^ 53` is the lowest mantissa of the next exponent. -/
def nearest (negative : Bool) (num den : Nat) : Option Binary64 :=
  let scaled := num * twoTo 1074
  let exponent := exponentFor (scaled / den)
  let mantissa := roundHalfEven scaled (den * twoTo exponent)
  if mantissa = mantissaEnd then ofParts? negative leadingBit (exponent + 1)
  else ofParts? negative mantissa exponent

/-- The double nearest to an integer that is small enough to have one. -/
def ofInt (n : Int) : Binary64 :=
  (nearest (decide (n < 0)) n.natAbs 1).getD (zero false)

/-- The rounded product, `none` beyond the largest double. -/
def mul (x y : Binary64) : Option Binary64 :=
  nearest (x.negative != y.negative) (x.magnitude * y.magnitude) (twoTo 2148)

/-- The rounded quotient; a divisor that is zero gives `none`. -/
def div (x y : Binary64) : Option Binary64 :=
  if y.isZero then none else nearest (x.negative != y.negative) x.magnitude y.magnitude

end Binary64

end Orchestration
