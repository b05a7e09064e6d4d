import Orchestration.Json.Numeral

/-!
# JSON text as far as it can be read

Reading a text gives a draft: the tree of what stands in it, in the order in which it stands there,
up to the first place where it is no JSON any more. A reader of drafts that goes through one in
order meets the faults of the text where they are, and so knows which of two faults comes first.

* `Draft.read` reads the first value of a text.
* `Draft.value?` is the value of a draft without faults.
* `Json.ofText?` reads a whole text as one value.
-/

namespace Orchestration.Json

/-- What stands in a text, up to the first fault. -/
inductive Draft where
  | null
  | bool (b : Bool)
  | int (n : Int)
  | float (x : Binary64)
  | str (s : String)
  /-- A number or a string of the right form that has no value. -/
  | flawed
  /-- The items that could be read; `closed` if the array ends where it should. -/
  | arr (items : List Draft) (closed : Bool)
  /-- The fields that could be read; `closed` if the object ends where it should. -/
  | obj (fields : List (String × Draft)) (closed : Bool)
  /-- The text goes wrong here. -/
  | broken

namespace Draft

instance : Inhabited Draft := ⟨.broken⟩

/-- The text of this value goes on to its end. -/
def isWhole : Draft → Bool
  | .broken => false
  | .arr _ closed | .obj _ closed => closed
  | _ => true

/-! ## Strings -/

/-- A character of a string, or a unit of 16 bits that an escape names. -/
inductive Piece where
  | char (c : Char)
  | unit (n : Nat)

def hexDigit? (c : Char) : Option Nat :=
  if '0' ≤ c ∧ c ≤ '9' then some (c.toNat - '0'.toNat)
  else if 'a' ≤ c ∧ c ≤ 'f' then some (c.toNat - 'a'.toNat + 10)
  else if 'A' ≤ c ∧ c ≤ 'F' then some (c.toNat - 'A'.toNat + 10)
  else none

def shortEscape? (c : Char) : Option Char :=
  if c = '"' ∨ c = '\\' ∨ c = '/' then some c
  else if c = 'b' then some (Char.ofNat 8)
  else if c = 't' then some (Char.ofNat 9)
  else if c = 'n' then some (Char.ofNat 10)
  else if c = 'f' then some (Char.ofNat 12)
  else if c = 'r' then some (Char.ofNat 13)
  else none

def hexUnit? (a b c d : Char) : Option Nat := do
  pure (((← hexDigit? a) * 16 + (← hexDigit? b)) * 256 + ((← hexDigit? c) * 16 + (← hexDigit? d)))

/-- The pieces of a string up to its closing quotation mark, and the rest after it. -/
def lexString : List Char → Option (List Piece × List Char)
  | [] => none
  | '"' :: rest => some ([], rest)
  | '\\' :: 'u' :: a :: b :: c :: d :: rest => do
    let n ← hexUnit? a b c d
    let (ps, rest) ← lexString rest
    pure (.unit n :: ps, rest)
  | '\\' :: e :: rest => do
    let c ← shortEscape? e
    let (ps, rest) ← lexString rest
    pure (.char c :: ps, rest)
  | c :: rest =>
    if c.toNat < 32 ∨ c = '\\' then none
    else do
      let (ps, rest) ← lexString rest
      pure (.char c :: ps, rest)

/-- The first of the two units of a character beyond U+FFFF. -/
def isHighUnit (n : Nat) : Bool := 0xD800 ≤ n && n ≤ 0xDBFF

/-- The second of the two units of a character beyond U+FFFF. -/
def isLowUnit (n : Nat) : Bool := 0xDC00 ≤ n && n ≤ 0xDFFF

/-- The characters that the pieces stand for; half of a pair of units stands for none. -/
def joinPieces : List Piece → Option (List Char)
  | [] => some []
  | .char c :: rest => do pure (c :: (← joinPieces rest))
  | .unit n :: .unit m :: rest =>
    if isHighUnit n then
      if isLowUnit m then do
        pure (Char.ofNat (0x10000 + (n - 0xD800) * 0x400 + (m - 0xDC00)) :: (← joinPieces rest))
      else none
    else if isLowUnit n then none
    else do pure (Char.ofNat n :: (← joinPieces (.unit m :: rest)))
  | .unit n :: rest =>
    if isHighUnit n || isLowUnit n then none
    else do pure (Char.ofNat n :: (← joinPieces rest))

/-! ## Values -/

/-- The white space between the tokens of a text. -/
def isSpace (c : Char) : Bool := c = ' ' || c = '\n' || c = '\t' || c = '\r'

/-- Drops white space from the head of a text. -/
def skip (cs : List Char) : List Char := cs.dropWhile isSpace

def readString (cs : List Char) : Draft × List Char :=
  match lexString cs with
  | none => (.broken, cs)
  | some (ps, rest) =>
    match joinPieces ps with
    | some s => (.str (String.ofList s), rest)
    | none => (.flawed, rest)

/-- The value of a numeral, or a flaw if it has none. -/
def ofNumeral (x : Numeral) : Draft :=
  match x.value? with
  | some (.int n) => .int n
  | some (.float f) => .float f
  | _ => .flawed

/-- A value that is no string, no array and no object. -/
def readPlain (cs : List Char) : Draft × List Char :=
  match cs with
  | 'n' :: 'u' :: 'l' :: 'l' :: rest => (.null, rest)
  | 't' :: 'r' :: 'u' :: 'e' :: rest => (.bool true, rest)
  | 'f' :: 'a' :: 'l' :: 's' :: 'e' :: rest => (.bool false, rest)
  | cs =>
    match Numeral.lex cs with
    | some (x, rest) => (ofNumeral x, rest)
    | none => (.broken, cs)

mutual

/-- Reads the value at the head of a text. The counter bounds the steps; the length
of the text suffices. -/
def readValue : Nat → List Char → Draft × List Char
  | 0, cs => (.broken, cs)
  | fuel + 1, cs =>
    match skip cs with
    | '"' :: rest => readString rest
    | '[' :: rest =>
      match skip rest with
      | ']' :: rest => (.arr [] true, rest)
      | rest =>
        let (items, closed, rest) := readItems fuel rest
        (.arr items closed, rest)
    | '\x7b' :: rest =>
      match skip rest with
      | '\x7d' :: rest => (.obj [] true, rest)
      | rest =>
        let (fields, closed, rest) := readFields fuel rest
        (.obj fields closed, rest)
    | rest => readPlain rest

/-- Reads the items of an array up to its closing bracket. -/
def readItems : Nat → List Char → List Draft × Bool × List Char
  | 0, cs => ([], false, cs)
  | fuel + 1, cs =>
    let (v, rest) := readValue fuel cs
    if v.isWhole then
      match skip rest with
      | ',' :: rest =>
        let (items, closed, rest) := readItems fuel rest
        (v :: items, closed, rest)
      | ']' :: rest => ([v], true, rest)
      | rest => ([v], false, rest)
    else ([v], false, rest)

/-- Reads the fields of an object up to its closing brace. -/
def readFields : Nat → List Char → List (String × Draft) × Bool × List Char
  | 0, cs => ([], false, cs)
  | fuel + 1, cs =>
    match skip cs with
    | '"' :: rest =>
      match readString rest with
      | (.str k, rest) =>
        match skip rest with
        | ':' :: rest =>
          let (v, rest) := readValue fuel rest
          if v.isWhole then
            match skip rest with
            | ',' :: rest =>
              let (fields, closed, rest) := readFields fuel rest
              ((k, v) :: fields, closed, rest)
            | '\x7d' :: rest => ([(k, v)], true, rest)
            | rest => ([(k, v)], false, rest)
          else ([(k, v)], false, rest)
        | rest => ([(k, .broken)], false, rest)
      | (_, rest) => ([], false, rest)
    | rest => ([], false, rest)

end

/-- Reads the first value of a text; what follows it is the second component. -/
def read (text : String) : Draft × List Char :=
  let cs := text.toList
  readValue (cs.length + 1) cs

/-! ## Values of drafts -/

/-- The greatest number of arrays and objects that may enclose one another. -/
def maxLevels : Nat := 127

mutual

/-- The value of a draft without faults that nests at most `levels` deep. -/
def value? (levels : Nat) : Draft → Option Json
  | .null => some .null
  | .bool b => some (.bool b)
  | .int n => some (.int n)
  | .float x => some (.float x)
  | .str s => some (.str s)
  | .flawed | .broken => none
  | .arr items closed =>
    match levels with
    | 0 => none
    | levels + 1 => do
      let vs ← itemValues? levels items
      if closed then pure (.arr vs) else none
  | .obj fields closed =>
    match levels with
    | 0 => none
    | levels + 1 => do
      let vs ← fieldValues? levels fields
      if closed then pure (.obj (Entries.ofWrites vs)) else none

def itemValues? (levels : Nat) : List Draft → Option (List Json)
  | [] => some []
  | d :: rest => do pure ((← d.value? levels) :: (← itemValues? levels rest))

def fieldValues? (levels : Nat) : List (String × Draft) → Option (List (String × Json))
  | [] => some []
  | (k, d) :: rest => do pure ((k, ← d.value? levels) :: (← fieldValues? levels rest))

end

mutual

/-- The draft of a text in which a value stands. -/
def ofValue : Json → Draft
  | .null => .null
  | .bool b => .bool b
  | .int n => .int n
  | .float x => .float x
  | .str s => .str s
  | .arr items => .arr (ofItems items) true
  | .obj fields => .obj (ofFields fields) true

def ofItems : List Json → List Draft
  | [] => []
  | v :: rest => ofValue v :: ofItems rest

def ofFields : List (String × Json) → List (String × Draft)
  | [] => []
  | (k, v) :: rest => (k, ofValue v) :: ofFields rest

end

end Draft

def ofText? (text : String) : Option Json :=
  match Draft.read text with
  | (d, rest) => if (Draft.skip rest).isEmpty then d.value? Draft.maxLevels else none

end Orchestration.Json
