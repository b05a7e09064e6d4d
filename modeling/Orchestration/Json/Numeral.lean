import Orchestration.Binary64.Decimal
import Orchestration.Json.Basic

/-!
# Numbers in JSON text

`Numeral.lex` takes a number off a text; `Numeral.value?` is the value it stands for. A numeral
without point and exponent is a whole number while it fits 64 bits. Any other one is a double: its
digits are taken as long as they fit 64 bits, and only the magnitude of the others counts.
-/

namespace Orchestration.Json

/-- A number as it is written: sign, digits before and after the point, exponent. -/
structure Numeral where
  negative : Bool
  whole : List Char
  /-- The digits after the point, if there is one. -/
  part : Option (List Char)
  exponent : Option Int

namespace Numeral

def digitValue (c : Char) : Nat := c.toNat - '0'.toNat

def digitsValue (ds : List Char) : Nat := ds.foldl (fun n c => 10 * n + digitValue c) 0

/-! ## Taking a number off a text -/

/-- The digits at the head of a text, and the rest. -/
def span (cs : List Char) : List Char × List Char :=
  (cs.takeWhile Char.isDigit, cs.dropWhile Char.isDigit)

/-- The digits before the point: a single zero, or digits that start with another one. -/
def lexWhole (cs : List Char) : Option (List Char × List Char) :=
  match span cs with
  | ([], _) => none
  | (['0'], rest) => some (['0'], rest)
  | ('0' :: _ :: _, _) => none
  | (ds, rest) => some (ds, rest)

/-- The point and at least one digit after it, if there is a point. -/
def lexPart : List Char → Option (Option (List Char) × List Char)
  | '.' :: cs =>
    match span cs with
    | ([], _) => none
    | (ds, rest) => some (some ds, rest)
  | cs => some (none, cs)

/-- An exponent of at least one digit, if there is an exponent mark. -/
def lexExponent : List Char → Option (Option Int × List Char)
  | c :: cs =>
    if c = 'e' ∨ c = 'E' then
      let (negative, cs) := match cs with
        | '-' :: cs => (true, cs)
        | '+' :: cs => (false, cs)
        | cs => (false, cs)
      match span cs with
      | ([], _) => none
      | (ds, rest) =>
        let n : Int := digitsValue ds
        some (some (if negative then -n else n), rest)
    else some (none, c :: cs)
  | [] => some (none, [])

/-- Takes a number off the head of a text. -/
def lex (cs : List Char) : Option (Numeral × List Char) := do
  let (negative, cs) := match cs with
    | '-' :: cs => (true, cs)
    | cs => (false, cs)
  let (whole, cs) ← lexWhole cs
  let (part, cs) ← lexPart cs
  let (exponent, cs) ← lexExponent cs
  pure (⟨negative, whole, part, exponent⟩, cs)

/-! ## The value -/

/-- The greatest number whose digits are all kept. -/
def maxDigits : Nat := 18446744073709551615

/-- Appends digits to a number as long as it stays in range; the rest is what does not fit. -/
def absorb (n : Nat) : List Char → Nat × List Char
  | [] => (n, [])
  | c :: cs =>
    let m := 10 * n + digitValue c
    if m ≤ maxDigits then absorb m cs else (n, c :: cs)

/-- The double that the digits that fit and the magnitude of the others give. -/
def float? (x : Numeral) : Option Binary64 :=
  let (n, lost) := absorb 0 x.whole
  let part := x.part.getD []
  let (m, rest) := absorb n part
  let kept : Int := part.length - rest.length
  Binary64.ofDecimalScaled x.negative m (lost.length - kept + x.exponent.getD 0)

/-- The value of a numeral; a double out of range has none. Minus zero is a double. -/
def value? (x : Numeral) : Option Json :=
  match x.part, x.exponent with
  | none, none =>
    let n : Int := digitsValue x.whole
    let n := if x.negative then -n else n
    if x.negative && n == 0 then some (.float (.zero true))
    else if minInt ≤ n ∧ n ≤ maxInt then some (.int n)
    else x.float?.map .float
  | _, _ => x.float?.map .float

end Numeral

end Orchestration.Json
