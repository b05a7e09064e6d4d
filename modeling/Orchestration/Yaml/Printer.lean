import Orchestration.Json.Printer
import Orchestration.Yaml.Char
import Orchestration.Yaml.Scalar

/-!
# YAML text of a value

`Json.yaml` writes a value in block style. Empty arrays and objects are written in brackets, an
array under a short key is not indented below it, and lines have no limit of length.

A string is written plain where it reads back as itself, else in single quotes, and in double quotes
where it needs escapes; a string of several lines is written as a block of its lines.
-/

namespace Orchestration.Yaml

/-! ## The style of a string -/

/-- How a string is written. -/
inductive StringStyle where
  | plain
  | single
  | double
  /-- A block of the lines of the string. -/
  | lines
deriving DecidableEq

/-- Whether two characters that stand side by side satisfy a relation. -/
def hasNeighbours (r : Char → Char → Bool) : List Char → Bool
  | a :: b :: rest => r a b || hasNeighbours r (b :: rest)
  | _ => false

def startIndicators : List Char := "#,[]\x7b\x7d&*!|>'\"%@`".toList

/-- Whether the start of a string would be taken for something else. -/
def hasStartIndicator : List Char → Bool
  | [] => false
  | c :: rest =>
    startIndicators.contains c || ((c == '?' || c == ':' || c == '-') && endsWord rest) ||
      ['-', '-', '-'].isPrefixOf (c :: rest) || ['.', '.', '.'].isPrefixOf (c :: rest)

/-- Whether a mark after the given character would be taken for the end of a
key or for a comment. -/
def hasInnerIndicator (before : Char) : List Char → Bool
  | [] => false
  | c :: rest =>
    (c == ':' && endsWord rest) || (c == '#' && isGap before) || hasInnerIndicator c rest

/-- Whether some part of a string would be taken for something else. -/
def hasIndicator (cs : List Char) : Bool :=
  hasStartIndicator cs ||
    match cs with
    | [] => false
    | c :: rest => hasInnerIndicator c rest

/-- Whether a string needs escapes: it has special characters, or spaces at the end of a line. -/
def needsEscapes (cs : List Char) : Bool :=
  cs.any (!isPrintable ·) || hasNeighbours (fun a b => a == ' ' && isBreak b) cs

def endsWithSpace (cs : List Char) : Bool := cs.getLast? == some ' '

def startsWithSpace (cs : List Char) : Bool := cs.head? == some ' '

/-- Whether a string may be a block of lines. -/
def linesAllowed (cs : List Char) : Bool := !needsEscapes cs && !endsWithSpace cs

/-- Whether a string may stand in single quotes: no line but the first starts with a space. -/
def singleAllowed (cs : List Char) : Bool :=
  !needsEscapes cs && !hasNeighbours (fun a b => isBreak a && b == ' ') cs

/-- Whether a string may stand without quotes. -/
def plainAllowed (cs : List Char) : Bool :=
  !cs.any (!isPrintable ·) && !cs.any isBreak && !startsWithSpace cs && !endsWithSpace cs &&
    !hasIndicator cs

/-- Whether a string without quotes would stand for something else than its text. -/
def readsAsOther (s : String) : Bool := Plain.isZeroLed s.toList || !(Plain.ofText s).isText

def styleOf (s : String) : StringStyle :=
  let cs := s.toList
  if cs.contains '\n' then
    if linesAllowed cs then .lines else .double
  else if !readsAsOther s && plainAllowed cs then .plain
  else if singleAllowed cs then .single
  else .double

/-! ## The text of a string -/

/-- A number in upper-case hexadecimal digits, filled up with zeros. -/
def hexText (width n : Nat) : List Char :=
  let ds := (Nat.toDigits 16 n).map Char.toUpper
  List.replicate (width - ds.length) '0' ++ ds

def numberEscape (n : Nat) : List Char :=
  if n ≤ 0xFF then '\\' :: 'x' :: hexText 2 n
  else if n ≤ 0xFFFF then '\\' :: 'u' :: hexText 4 n
  else '\\' :: 'U' :: hexText 8 n

def letterEscapes : List (Nat × Char) :=
  [(0, '0'), (7, 'a'), (8, 'b'), (9, 't'), (10, 'n'), (11, 'v'), (12, 'f'), (13, 'r'), (27, 'e'),
    (34, '"'), (92, '\\'), (0x85, 'N'), (0xA0, '_'), (0x2028, 'L'), (0x2029, 'P')]

/-- A character between double quotes. -/
def doubleChar (c : Char) : List Char :=
  if isPrintable c && !isBreak c && c != '"' && c != '\\' then [c]
  else
    match letterEscapes.lookup c.toNat with
    | some letter => ['\\', letter]
    | none => numberEscape c.toNat

/-- A string in double quotes. -/
def doubleText (cs : List Char) : List Char := '"' :: (cs.flatMap doubleChar ++ ['"'])

/-- Spaces up to a column. -/
def spaces (n : Nat) : List Char := List.replicate n ' '

/-- Lines between single quotes; a line after a break is indented. -/
def singleLines (indent : Nat) (afterBreak : Bool) : List Char → List Char
  | [] => if afterBreak then spaces indent else []
  | c :: rest =>
    if isBreak c then c :: singleLines indent true rest
    else
      (if afterBreak then spaces indent else []) ++
        ((if c = '\'' then ['\'', '\''] else [c]) ++ singleLines indent false rest)

def singleText (indent : Nat) (cs : List Char) : List Char :=
  '\'' :: (singleLines indent false cs ++ ['\''])

/-- The lines of a block; each line that is not empty is indented. -/
def blockLines (indent : Nat) (fresh : Bool) : List Char → List Char
  | [] => []
  | c :: rest =>
    if isBreak c then c :: blockLines indent true rest
    else (if fresh then spaces indent else []) ++ c :: blockLines indent false rest

/-- The mark for a block that starts with a blank line or a space, so that
its indentation is told. -/
def indentMark : List Char → List Char
  | c :: _ => if c == ' ' || isBreak c then ['2'] else []
  | [] => []

/-- The mark for the line breaks at the end of a block: none, one, or more. -/
def breaksMark (cs : List Char) : List Char :=
  match cs.reverse with
  | [] => ['-']
  | [c] => if isBreak c then ['+'] else ['-']
  | c :: b :: _ => if isBreak c then (if isBreak b then ['+'] else []) else ['-']

def blockText (indent : Nat) (cs : List Char) : List Char :=
  '|' :: (indentMark cs ++ breaksMark cs ++ '\n' :: blockLines indent true cs)

/-- A string in its style; lines after the first are indented. -/
def stringText (indent : Nat) (s : String) : List Char :=
  match styleOf s with
  | .plain => s.toList
  | .single => singleText indent s.toList
  | .double => doubleText s.toList
  | .lines => blockText indent s.toList

/-! ## The text of a value -/

/-- Doubles are written as in JSON, but without a plus in the exponent. -/
def floatStyle : DecimalStyle := { Json.floatStyle with plus := false }

/-- Ends the last line of a text, unless it is ended. -/
def endLine (text : List Char) : List Char :=
  match text.getLast? with
  | some c => if isBreak c then text else text ++ ['\n']
  | none => ['\n']

/-- The longest key, in bytes, that stands on one line with its value. -/
def maxShortKey : Nat := 128

/-- Whether a key stands on one line with its value. -/
def isShortKey (k : String) : Bool := k.utf8ByteSize ≤ maxShortKey && !k.toList.any isBreak

/-- What stands between a short key and its value, whose items or fields are
then in the given column. -/
def afterShortKey (n : Nat) : Json → List Char × Nat
  | .arr (_ :: _) => (':' :: '\n' :: spaces n, n)
  | .obj (_ :: _) => (':' :: '\n' :: spaces (n + 2), n + 2)
  | _ => ([':', ' '], n + 2)

/-- A key and what stands between it and its value. -/
def keyText (n : Nat) (k : String) (v : Json) : List Char × Nat :=
  if isShortKey k then
    let (between, column) := afterShortKey n v
    (stringText (n + 2) k ++ between, column)
  else (endLine ('?' :: ' ' :: stringText (n + 2) k) ++ spaces n ++ [':', ' '], n + 2)

mutual

/-- The text of a value whose items or fields are in the given column, to
which lines are indented. -/
def valueText (n : Nat) : Json → List Char
  | .null => ['n', 'u', 'l', 'l']
  | .bool true => ['t', 'r', 'u', 'e']
  | .bool false => ['f', 'a', 'l', 's', 'e']
  | .int i => Json.intText i
  | .float x => x.toText floatStyle
  | .str s => stringText n s
  | .arr [] => ['[', ']']
  | .arr (v :: rest) => '-' :: ' ' :: (itemsText n (valueText (n + 2) v) rest)
  | .obj [] => ['\x7b', '\x7d']
  | .obj ((k, v) :: rest) =>
    let (key, column) := keyText n k v
    key ++ fieldsText n (valueText column v) rest

/-- The items after a first one, whose text is given, each on a line of its own. -/
def itemsText (n : Nat) (first : List Char) : List Json → List Char
  | [] => first
  | v :: rest =>
    endLine first ++ (spaces n ++ '-' :: ' ' :: (itemsText n (valueText (n + 2) v) rest))

/-- The fields after a first one, whose value's text is given, each on a line of its own. -/
def fieldsText (n : Nat) (first : List Char) : List (String × Json) → List Char
  | [] => first
  | (k, v) :: rest =>
    let (key, column) := keyText n k v
    endLine first ++ (spaces n ++ (key ++ fieldsText n (valueText column v) rest))

end

/-- The column of a whole document's items or fields, and the indentation of
the lines of its string. -/
def documentColumn : Json → Nat
  | .arr _ | .obj _ => 0
  | _ => 2

end Orchestration.Yaml

namespace Orchestration

def Json.yaml (v : Json) : String :=
  String.ofList (Yaml.endLine (Yaml.valueText (Yaml.documentColumn v) v))

end Orchestration
