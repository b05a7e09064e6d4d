import Orchestration.Binary64.Basic

/-!
# Decimal numerals of doubles

* `Binary64.shortest` is the decimal numeral of fewest digits that reads back as the same double.
* `DecimalStyle` says how such a numeral is written; `Binary64.toText` writes it.
* `Binary64.ofDecimal` reads a numeral to the nearest double; `Binary64.ofDecimalScaled` reads it in
  two rounded steps: first the digits, then the power of ten.
-/

namespace Orchestration

namespace Binary64

/-! ## Shortest digits -/

/-- The magnitude as a quotient of naturals, a power of two removed from
both where that is plain. -/
def ratio (x : Binary64) : Nat × Nat :=
  if 1074 ≤ x.exponent then (x.mantissa * twoTo (x.exponent - 1074), 1)
  else (x.mantissa, twoTo (1074 - x.exponent))

/-- The number of decimal digits of a natural number, `0` for zero. -/
def digitCount (n : Nat) : Nat := if n = 0 then 0 else (Nat.toDigits 10 n).length

/-- The number of zeros that follow the decimal point of `num / den` when it is below one. -/
def leadingZeros (num den : Nat) : Nat → Nat
  | 0 => 0
  | fuel + 1 => if num * 10 < den then leadingZeros (num * 10) den fuel + 1 else 0

/-- The power of ten just above the quotient: `10 ^ (k - 1) ≤ num / den < 10 ^ k`. -/
def decimalTop (num den : Nat) : Int :=
  if den ≤ num then digitCount (num / den) else -(leadingZeros num den 400 : Int)

/-- The interval of the numbers that round to a double, scaled so that its centre, its half width
below and its half width above are naturals over `den`. The gap below the lowest mantissa of an
exponent is half of the gap above it. -/
structure Interval where
  centre : Nat
  below : Nat
  above : Nat
  den : Nat
  /-- The ends themselves round to the double, because its mantissa is even. -/
  closed : Bool

/-- The interval of the numbers that round to the magnitude of `x`. -/
def interval (x : Binary64) : Interval :=
  let r := x.ratio
  let unit := if 1074 ≤ x.exponent then twoTo (x.exponent - 1074) else 1
  { centre := 4 * r.1
    below := if x.mantissa = leadingBit ∧ 0 < x.exponent then unit else 2 * unit
    above := 2 * unit
    den := 4 * r.2
    closed := x.mantissa % 2 == 0 }

/-- Whether `num / den'` lies in the interval. -/
def Interval.contains (i : Interval) (num den' : Nat) : Bool :=
  let lhs := num * i.den
  let low := (i.centre - i.below) * den'
  let high := (i.centre + i.above) * den'
  if i.closed then decide (low ≤ lhs ∧ lhs ≤ high) else decide (low < lhs ∧ lhs < high)

/-- The numeral `digits · 10 ^ exponent`. -/
structure Numeral where
  digits : Nat
  exponent : Int
deriving DecidableEq

/-- The point `q · 10 ^ e` as a quotient of naturals. -/
def gridPoint (q : Nat) (e : Int) : Nat × Nat :=
  if 0 ≤ e then (q * tenTo e.toNat, 1) else (q, tenTo (-e).toNat)

/-- The points of the grid `10 ^ e` on both sides of the centre that lie in the interval,
the nearer one first. -/
def Interval.onGrid (i : Interval) (e : Int) : Option Numeral :=
  let num := if 0 ≤ e then i.centre else i.centre * tenTo (-e).toNat
  let den := if 0 ≤ e then i.den * tenTo e.toNat else i.den
  let q := num / den
  let twice := 2 * (num % den)
  let inside (q : Nat) : Bool := let p := gridPoint q e; i.contains p.1 p.2
  let nearer := if twice < den ∨ (twice = den ∧ q % 2 = 0) then q else q + 1
  let farther := if nearer = q then q + 1 else q
  if inside nearer then some ⟨nearer, e⟩
  else if inside farther then some ⟨farther, e⟩
  else none

/-- The first hit on ever finer grids. -/
def Interval.search (i : Interval) (top : Int) (digits : Nat) : Nat → Option Numeral
  | 0 => none
  | fuel + 1 =>
    match i.onGrid (top - digits) with
    | some n => some n
    | none => i.search top (digits + 1) fuel

def Numeral.trim (digits : Nat) (exponent : Int) : Nat → Numeral
  | 0 => ⟨digits, exponent⟩
  | fuel + 1 =>
    if digits ≠ 0 ∧ digits % 10 = 0 then Numeral.trim (digits / 10) (exponent + 1) fuel
    else ⟨digits, exponent⟩

/-- The numeral of fewest digits that reads back as the magnitude of `x`, the nearest of those. -/
def shortest (x : Binary64) : Numeral :=
  if x.isZero then ⟨0, 0⟩
  else
    let i := x.interval
    match i.search (decimalTop x.ratio.1 x.ratio.2) 1 17 with
    | some n => Numeral.trim n.digits n.exponent 20
    | none => ⟨0, 0⟩

end Binary64

/-! ## Writing -/

/-- How a numeral is written. Its first digit stands for `10 ^ p`; for `lowest ≤ p ≤ highest` it is
written with the decimal point in its place, otherwise with an exponent. -/
structure DecimalStyle where
  lowest : Int
  highest : Int
  /-- Whether a plus sign stands before an exponent that is not negative. -/
  plus : Bool

namespace DecimalStyle

/-- Digits `ds` with an exponent mark, for a first digit that stands for `10 ^ p`. -/
def scientific (style : DecimalStyle) (ds : List Char) (p : Int) : List Char :=
  let mantissa := match ds with
    | [] => ['0']
    | [d] => [d]
    | d :: rest => d :: '.' :: rest
  let sign := if p < 0 then ['-'] else if style.plus then ['+'] else []
  mantissa ++ ['e'] ++ sign ++ Nat.toDigits 10 p.natAbs

/-- Digits `ds` with the decimal point in its place, at least one digit on both sides of it. -/
def positional (ds : List Char) (p : Int) : List Char :=
  if p < 0 then ['0', '.'] ++ List.replicate (-p - 1).toNat '0' ++ ds
  else
    let before := p.toNat + 1
    let whole := ds.take before ++ List.replicate (before - ds.length) '0'
    let part := ds.drop before
    whole ++ ['.'] ++ (if part.isEmpty then ['0'] else part)

def write (style : DecimalStyle) (negative : Bool) (n : Binary64.Numeral) : List Char :=
  let ds := Nat.toDigits 10 n.digits
  let p : Int := n.exponent + ds.length - 1
  let body :=
    if n.digits = 0 then ['0', '.', '0']
    else if style.lowest ≤ p ∧ p ≤ style.highest then positional ds p
    else style.scientific ds p
  if negative then '-' :: body else body

end DecimalStyle

namespace Binary64

/-- The shortest numeral of `x` in the given style. -/
def toText (style : DecimalStyle) (x : Binary64) : List Char :=
  style.write x.negative x.shortest

/-! ## Reading -/

/-- The double nearest to `± digits · 10 ^ exponent`; `none` beyond the largest double. -/
def ofDecimal (negative : Bool) (digits : Nat) (exponent : Int) : Option Binary64 :=
  if digits = 0 then some (zero negative)
  else
    let top : Int := exponent + digitCount digits
    if 400 < top then none
    else if top < -400 then some (zero negative)
    else
      let p := gridPoint digits exponent
      nearest negative p.1 p.2

/-- The double nearest to `10 ^ n`, for `n` up to 308. -/
def powerOfTen (n : Nat) : Binary64 := (nearest false (tenTo n) 1).getD (zero false)

/-- Divides by `10 ^ n` in rounded steps: by `10 ^ 308` while more than that is left, which ends
early at zero, then by the rest. -/
def divPowerOfTen (x : Binary64) (n : Nat) : Nat → Option Binary64
  | 0 => some x
  | fuel + 1 =>
    if n ≤ 308 then x.div (powerOfTen n)
    else if x.isZero then some x
    else do divPowerOfTen (← x.div (powerOfTen 308)) (n - 308) fuel

/-- Reads `± digits · 10 ^ exponent` in two rounded steps: the digits are rounded to a double, which
is then multiplied with or divided by a rounded power of ten. `none` beyond the largest double. -/
def ofDecimalScaled (negative : Bool) (digits : Nat) (exponent : Int) : Option Binary64 := do
  let x ← nearest negative digits 1
  if 0 ≤ exponent then
    if exponent ≤ 308 then x.mul (powerOfTen exponent.toNat)
    else if x.isZero then some x
    else none
  else x.divPowerOfTen (-exponent).toNat 8

end Binary64

end Orchestration
