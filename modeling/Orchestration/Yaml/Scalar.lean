import Orchestration.Json.Numeral

/-!
# What a plain scalar stands for

A scalar without quotes that has the form of a null, a truth value or a number stands for that,
any other one for its text (`Plain.ofText`). A row of digits that starts with a zero is a text.
-/

namespace Orchestration.Yaml

open Json.Numeral (span digitsValue lexExponent)

/-- What a plain scalar stands for. -/
inductive Plain where
  | null
  | bool (b : Bool)
  | int (n : Int)
  /-- A whole number of more than 64 bits. -/
  | wide (n : Int)
  | float (x : Binary64)
  /-- An infinity, or no number. -/
  | notFinite
  | text

namespace Plain

/-! ## Whole numbers -/

def hexValue (c : Char) : Nat :=
  if c.isDigit then c.toNat - '0'.toNat
  else if 'a' ≤ c ∧ c ≤ 'f' then c.toNat - 'a'.toNat + 10
  else c.toNat - 'A'.toNat + 10

def isHexDigit (c : Char) : Bool :=
  c.isDigit || ('a' ≤ c && c ≤ 'f') || ('A' ≤ c && c ≤ 'F')

/-- The number that a nonempty row of digits of a base up to sixteen stands for. -/
def digits? (base : Nat) (ds : List Char) : Option Nat :=
  if ds.isEmpty then none
  else if ds.all fun c => isHexDigit c && hexValue c < base then
    some (ds.foldl (fun n c => base * n + hexValue c) 0)
  else none

/-- Splits a sign off; the flag says whether it is a minus. -/
def splitSign : List Char → Bool × List Char
  | '-' :: cs => (true, cs)
  | '+' :: cs => (false, cs)
  | cs => (false, cs)

/-- Whether a text without its sign is a row of more than one digit that starts with a zero. -/
def isZeroLed (cs : List Char) : Bool :=
  match (splitSign cs).2 with
  | '0' :: d :: rest => (d :: rest).all Char.isDigit
  | _ => false

/-- The magnitude of a whole number: decimal, or in another base after a mark for it. -/
def magnitude? : List Char → Option Nat
  | '0' :: 'x' :: ds => digits? 16 ds
  | '0' :: 'o' :: ds => digits? 8 ds
  | '0' :: 'b' :: ds => digits? 2 ds
  | ds => digits? 10 ds

/-- The whole number that a text stands for, whatever its size. -/
def whole? (cs : List Char) : Option Int :=
  if isZeroLed cs then none
  else
    let (negative, body) := splitSign cs
    (magnitude? body).map fun n => if negative then -(n : Int) else n

/-! ## Doubles -/

/-- The finite double nearest to a decimal number; either side of the point
may be empty, not both. -/
def finite? (cs : List Char) : Option Binary64 := do
  let (negative, body) := splitSign cs
  let (whole, rest) := span body
  let (part, rest) := match rest with
    | '.' :: rest => span rest
    | rest => ([], rest)
  let (exponent, rest) ← lexExponent rest
  if (whole.isEmpty && part.isEmpty) || !rest.isEmpty then none
  else Binary64.ofDecimal negative (digitsValue (whole ++ part)) (exponent.getD 0 - part.length)

/-- The spellings of the infinities and of what is no number. -/
def notFiniteTexts : List String :=
  [".inf", ".Inf", ".INF", "+.inf", "+.Inf", "+.INF", "-.inf", "-.Inf", "-.INF",
    ".nan", ".NaN", ".NAN"]

/-- The double, finite or not, that a text stands for. -/
def float? (s : String) : Option Plain :=
  if notFiniteTexts.contains s then some .notFinite
  else (finite? s.toList).map .float

/-! ## All together -/

def isNull (s : String) : Bool := ["null", "Null", "NULL", "~"].contains s

/-- The truth value that a text is a spelling of. -/
def bool? (s : String) : Option Bool :=
  if ["true", "True", "TRUE"].contains s then some true
  else if ["false", "False", "FALSE"].contains s then some false
  else none

/-- The least whole number of 128 bits. -/
def minWide : Int := -170141183460469231731687303715884105728

/-- The greatest whole number of 128 bits. -/
def maxWide : Int := 340282366920938463463374607431768211455

/-- The whole number that a text stands for, if it fits 128 bits. -/
def int? (s : String) : Option Plain :=
  match whole? s.toList with
  | some n =>
    if Json.minInt ≤ n ∧ n ≤ Json.maxInt then some (.int n)
    else if minWide ≤ n ∧ n ≤ maxWide then some (.wide n)
    else none
  | none => none

def ofText (s : String) : Plain :=
  if s.isEmpty || isNull s then .null
  else
    match bool? s, int? s with
    | some b, _ => .bool b
    | none, some n => n
    | none, none => if isZeroLed s.toList then .text else (float? s).getD .text

/-- Whether a plain scalar stands for its own text. -/
def isText : Plain → Bool
  | .text => true
  | _ => false

end Plain

end Orchestration.Yaml
