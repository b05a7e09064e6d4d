import Orchestration.Yaml.Cursor
import Orchestration.Yaml.Scalar
import Orchestration.Yaml.Token.Basic

/-!
# Tags, anchors and directives

A tag is a handle and a suffix; directives say which version of YAML a document is in and what
handles of tags stand for.
-/

namespace Orchestration.Yaml

/-! ## Suffixes of tags -/

/-- The characters of the suffix of a tag, escapes apart. -/
def isTagChar (c : Char) : Bool := isWordChar c || ";/?:@&=+$.!~*'()".toList.contains c

/-- The characters of a whole tag in angle brackets. -/
def isWholeTagChar (c : Char) : Bool := isTagChar c || ",[]".toList.contains c

/-- The octet of an escape: a percent sign and two hexadecimal digits. -/
def octet? : List Char → Option (Nat × List Char)
  | '%' :: a :: b :: cs => (Plain.digits? 16 [a, b]).map fun n => (n, cs)
  | _ => none

/-- The number of octets of a character by its first octet, and the bits of
that octet that count. -/
def leadingOctet? (n : Nat) : Option (Nat × Nat) :=
  if n < 0x80 then some (1, n)
  else if 0xC0 ≤ n ∧ n < 0xE0 then some (2, n - 0xC0)
  else if 0xE0 ≤ n ∧ n < 0xF0 then some (3, n - 0xE0)
  else if 0xF0 ≤ n ∧ n < 0xF8 then some (4, n - 0xF0)
  else none

/-- Appends the bits of so many following octets to a number. -/
def followingOctets? : Nat → Nat → List Char → Option (Nat × List Char)
  | 0, n, cs => some (n, cs)
  | k + 1, n, cs => do
    let (o, cs) ← octet? cs
    if 0x80 ≤ o ∧ o < 0xC0 then followingOctets? k (n * 64 + (o - 0x80)) cs else none

/-- The character that a row of escaped octets stands for. -/
def escapedTagChar? (cs : List Char) : Option (Char × List Char) := do
  let (o, cs) ← octet? cs
  let (width, bits) ← leadingOctet? o
  let (n, cs) ← followingOctets? (width - 1) bits cs
  pure (Char.ofNat n, cs)

/-- The longest row of characters of a tag at the head of a text, of so many characters at most. -/
def tagChars? (allowed : Char → Bool) : Nat → List Char → Option (List Char × List Char)
  | fuel + 1, c :: cs =>
    if c == '%' then do
      let (x, rest) ← escapedTagChar? (c :: cs)
      let (more, rest) ← tagChars? allowed fuel rest
      pure (x :: more, rest)
    else if allowed c then do
      let (more, rest) ← tagChars? allowed fuel cs
      pure (c :: more, rest)
    else some ([], c :: cs)
  | _, cs => some ([], cs)

/-! ## Tags -/

/-- A handle: exclamation marks around a word, or one that a word follows. -/
def tagHandle? : List Char → Option (List Char × List Char)
  | '!' :: cs =>
    let word := cs.takeWhile isWordChar
    match cs.dropWhile isWordChar with
    | '!' :: rest => some ('!' :: (word ++ ['!']), rest)
    | rest => some ('!' :: word, rest)
  | _ => none

/-- Whether a handle is closed: it ends with an exclamation mark of its own. -/
def isClosedHandle (handle : List Char) : Bool :=
  1 < handle.length && handle.getLast? == some '!'

/-- The handle and the suffix of a tag that is not in angle brackets. -/
def shortTag? (cs : List Char) : Option (Token × List Char) := do
  let (handle, rest) ← tagHandle? cs
  let (suffix, rest) ← tagChars? isTagChar rest.length rest
  if isClosedHandle handle then
    if suffix.isEmpty then none
    else some (.tag (String.ofList handle) (String.ofList suffix), rest)
  else
    let suffix := handle.drop 1 ++ suffix
    if suffix.isEmpty then some (.tag "" "!", rest)
    else some (.tag "!" (String.ofList suffix), rest)

/-- The tag in angle brackets, whose first bracket is read. -/
def wholeTag? (cs : List Char) : Option (Token × List Char) := do
  let (suffix, rest) ← tagChars? isWholeTagChar cs.length cs
  match rest with
  | '>' :: rest => if suffix.isEmpty then none else some (.tag "" (String.ofList suffix), rest)
  | _ => none

/-- The tag at the head of a text; a blank, the end of the line or, between
brackets, a comma ends it. -/
def tag? (flow : Bool) (cs : List Char) : Option (Token × List Char) := do
  let (t, rest) ← match cs with
    | '!' :: '<' :: cs => wholeTag? cs
    | cs => shortTag? cs
  if endsWord rest || (flow && rest.head? == some ',') then pure (t, rest) else none

/-! ## Anchors -/

/-- The name of an anchor or alias, whose sign is read. -/
def anchorName? (cs : List Char) : Option (String × List Char) :=
  let name := cs.takeWhile isWordChar
  let rest := cs.dropWhile isWordChar
  let ends :=
    endsWord rest || (rest.head?.map fun c => "?:,]\x7d%@`".toList.contains c) == some true
  if name.isEmpty || !ends then none else some (String.ofList name, rest)

/-! ## Directives -/

/-- A number of a version, of at most nine digits. -/
def versionNumber? (cs : List Char) : Option (Nat × List Char) :=
  let (ds, rest) := Json.Numeral.span cs
  if ds.isEmpty || 9 < ds.length then none else some (Json.Numeral.digitsValue ds, rest)

def version? (cs : List Char) : Option (Token × List Char) := do
  let (major, rest) ← versionNumber? (cs.dropWhile isBlank)
  match rest with
  | '.' :: rest => do
    let (minor, rest) ← versionNumber? rest
    pure (.version major minor, rest)
  | _ => none

/-- A handle of tags and what it stands for. -/
def handleMeaning? (cs : List Char) : Option (Token × List Char) := do
  let (handle, rest) ← tagHandle? (cs.dropWhile isBlank)
  if !isClosedHandle handle && handle.length != 1 then none
  else if !(rest.head?.map isBlank).getD false then none
  else do
    let rest := rest.dropWhile isBlank
    let (head, rest) ← tagChars? isWholeTagChar rest.length rest
    if head.isEmpty || !endsWord rest then none
    else some (.handle (String.ofList handle) (String.ofList head), rest)

/-- The directive at the cursor, and the start of the next line. -/
def directive? (c : Cursor) : Option (Token × Cursor) := do
  let (name, after) := (c.advance 1).takeWhile isWordChar
  if name.isEmpty || !endsWord after.rest then none
  else do
    let (t, rest) ← match String.ofList name with
      | "YAML" => version? after.rest
      | "TAG" => handleMeaning? after.rest
      | _ => none
    let c := ((after.upTo rest).skipWhile isBlank).skipComment
    if c.atLineEnd then pure (t, c.skipBreak) else none

end Orchestration.Yaml
