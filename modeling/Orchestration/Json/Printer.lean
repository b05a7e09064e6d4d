import Orchestration.Binary64.Decimal
import Orchestration.Json.Basic

/-!
# JSON text of a value

* `Json.compact` writes a value without white space.
* `Json.pretty` writes a value on indented lines, two blanks for a level.

In strings the quotation mark, the backslash and the characters below U+0020
are escaped, nothing else.
-/

namespace Orchestration.Json

/-! ## Strings and numbers -/

def escapeChar (c : Char) : List Char :=
  if c = '"' then ['\\', '"']
  else if c = '\\' then ['\\', '\\']
  else if c.toNat = 8 then ['\\', 'b']
  else if c.toNat = 9 then ['\\', 't']
  else if c.toNat = 10 then ['\\', 'n']
  else if c.toNat = 12 then ['\\', 'f']
  else if c.toNat = 13 then ['\\', 'r']
  else if c.toNat < 32 then
    ['\\', 'u', '0', '0', Nat.digitChar (c.toNat / 16), Nat.digitChar (c.toNat % 16)]
  else [c]

/-- The characters of a string between its quotation marks. -/
def escape (cs : List Char) : List Char := cs.flatMap escapeChar

def quoted (s : String) : List Char := '"' :: (escape s.toList ++ ['"'])

/-- Doubles: positional from `10 ^ (-5)` up to below `10 ^ 16`, and a plus
before other exponents. -/
def floatStyle : DecimalStyle := ⟨-5, 15, true⟩

def intText (n : Int) : List Char :=
  if n < 0 then '-' :: Nat.toDigits 10 n.natAbs else Nat.toDigits 10 n.natAbs

/-! ## Compact text -/

mutual

/-- The text of a value without white space. -/
def compactText : Json → List Char
  | .null => ['n', 'u', 'l', 'l']
  | .bool true => ['t', 'r', 'u', 'e']
  | .bool false => ['f', 'a', 'l', 's', 'e']
  | .int n => intText n
  | .float x => x.toText floatStyle
  | .str s => quoted s
  | .arr [] => ['[', ']']
  | .arr (v :: rest) => '[' :: (compactText v ++ compactItems rest)
  | .obj [] => ['\x7b', '\x7d']
  | .obj ((k, v) :: rest) => '\x7b' :: (quoted k ++ ':' :: (compactText v ++ compactFields rest))

/-- The items after the first, each after a comma, and the closing bracket. -/
def compactItems : List Json → List Char
  | [] => [']']
  | v :: rest => ',' :: (compactText v ++ compactItems rest)

/-- The fields after the first, each after a comma, and the closing brace. -/
def compactFields : List (String × Json) → List Char
  | [] => ['\x7d']
  | (k, v) :: rest => ',' :: (quoted k ++ ':' :: (compactText v ++ compactFields rest))

end

/-- The text of a value without white space. -/
def compact (v : Json) : String := String.ofList v.compactText

/-! ## Indented text -/

/-- A line break and the indentation of a level. -/
def newline (level : Nat) : List Char := '\n' :: List.replicate (2 * level) ' '

mutual

/-- The text of a value whose lines after the first are indented by `level`. -/
def prettyText (level : Nat) : Json → List Char
  | .arr [] => ['[', ']']
  | .arr (v :: rest) =>
    '[' :: (newline (level + 1) ++ (prettyText (level + 1) v ++ prettyItems level rest))
  | .obj [] => ['\x7b', '\x7d']
  | .obj ((k, v) :: rest) =>
    '\x7b' :: (newline (level + 1) ++ (quoted k ++ ':' :: ' ' ::
      (prettyText (level + 1) v ++ prettyFields level rest)))
  | .null => ['n', 'u', 'l', 'l']
  | .bool true => ['t', 'r', 'u', 'e']
  | .bool false => ['f', 'a', 'l', 's', 'e']
  | .int n => intText n
  | .float x => x.toText floatStyle
  | .str s => quoted s

/-- The items after the first on lines of their own, and the closing bracket. -/
def prettyItems (level : Nat) : List Json → List Char
  | [] => newline level ++ [']']
  | v :: rest =>
    ',' :: (newline (level + 1) ++ (prettyText (level + 1) v ++ prettyItems level rest))

/-- The fields after the first on lines of their own, and the closing brace. -/
def prettyFields (level : Nat) : List (String × Json) → List Char
  | [] => newline level ++ ['\x7d']
  | (k, v) :: rest =>
    ',' :: (newline (level + 1) ++ (quoted k ++ ':' :: ' ' ::
      (prettyText (level + 1) v ++ prettyFields level rest)))

end

def pretty (v : Json) : String := String.ofList (v.prettyText 0)

end Orchestration.Json
