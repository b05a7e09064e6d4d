import Orchestration.Yaml.Cursor
import Orchestration.Yaml.Scalar

/-!
# Scalars in quotes and plain scalars

Both may go over several lines; the gaps between their words count as `Gap.text` says. Between
double quotes there are escapes, between single quotes a quote is written twice.
-/

namespace Orchestration.Yaml

/-! ## Between quotes -/

def escapeValue? (c : Char) : Option Char :=
  match c with
  | '0' => some (Char.ofNat 0)
  | 'a' => some (Char.ofNat 7)
  | 'b' => some (Char.ofNat 8)
  | 't' => some '\t'
  | '\t' => some '\t'
  | 'n' => some '\n'
  | 'v' => some (Char.ofNat 11)
  | 'f' => some (Char.ofNat 12)
  | 'r' => some '\r'
  | 'e' => some (Char.ofNat 27)
  | ' ' => some ' '
  | '"' => some '"'
  | '/' => some '/'
  | '\\' => some '\\'
  | 'N' => some (Char.ofNat 0x85)
  | '_' => some (Char.ofNat 0xA0)
  | 'L' => some (Char.ofNat 0x2028)
  | 'P' => some (Char.ofNat 0x2029)
  | _ => none

/-- The number of digits after the letter of an escape by number. -/
def escapeWidth? (c : Char) : Option Nat :=
  match c with
  | 'x' => some 2
  | 'u' => some 4
  | 'U' => some 8
  | _ => none

/-- The character with the number that so many hexadecimal digits give, and the text after them. -/
def numberedChar? (width : Nat) (cs : List Char) : Option (Char × List Char) := do
  let ds := cs.take width
  if ds.length = width then
    let n ← Plain.digits? 16 ds
    if n.isValidChar then some (Char.ofNat n, cs.drop width) else none
  else none

/-- The character of an escape whose backslash is read, and the text after it. -/
def escape? : List Char → Option (Char × List Char)
  | [] => none
  | c :: cs =>
    match escapeValue? c, escapeWidth? c with
    | some x, _ => some (x, cs)
    | none, some width => numberedChar? width cs
    | none, none => none

/-- A piece of a scalar in quotes, and what is left after it. -/
structure Piece where
  text : List Char
  rest : List Char
  /-- Whether the piece ends with an escaped line break. -/
  escaped : Bool

def Piece.cons (c : Char) (p : Piece) : Piece := { p with text := c :: p.text }

/-- The piece between single quotes up to the next gap or quote. -/
def singlePiece : List Char → Piece
  | '\'' :: '\'' :: cs => (singlePiece cs).cons '\''
  | '\'' :: cs => ⟨[], '\'' :: cs, false⟩
  | c :: cs => if isGap c then ⟨[], c :: cs, false⟩ else (singlePiece cs).cons c
  | [] => ⟨[], [], false⟩

/-- The piece between double quotes up to the next gap or quote, of so many characters at most. -/
def doublePiece? : Nat → List Char → Option Piece
  | fuel + 1, '\\' :: cs =>
    if !cs.isEmpty && endsLine cs then some ⟨[], cs, true⟩
    else do
      let (c, rest) ← escape? cs
      pure ((← doublePiece? fuel rest).cons c)
  | fuel + 1, c :: cs =>
    if c = '"' || isGap c then some ⟨[], c :: cs, false⟩
    else do pure ((← doublePiece? fuel cs).cons c)
  | _, cs => some ⟨[], cs, false⟩

/-- The text up to the closing quote, and the cursor after the quote. -/
def quotedText? (quote : Char) : Nat → Cursor → Option (List Char × Cursor)
  | 0, _ => none
  | fuel + 1, c =>
    if c.atDocumentMark || c.rest.isEmpty then none
    else do
      let piece ← if quote = '"' then doublePiece? c.rest.length c.rest
        else some (singlePiece c.rest)
      let c := c.upTo piece.rest
      let c := if piece.escaped then c.skipBreak else c
      if c.isAt quote then pure (piece.text, c.advance 1)
      else
        let (gap, c) ← Gap.read 0 c.rest.length (if piece.escaped then .escaped else .none) c
        let (more, c) ← quotedText? quote fuel c
        let between := if piece.escaped then gap.textAfterEscape else gap.text
        pure (piece.text ++ (between ++ more), c)

/-- The scalar in quotes that starts at the cursor. -/
def quotedScalar? (quote : Char) (c : Cursor) : Option (String × Cursor) := do
  let (text, c) ← quotedText? quote (c.rest.length + 1) (c.advance 1)
  pure (String.ofList text, c)

/-! ## Without quotes -/

/-- The word of a plain scalar at the head of a text, and the rest; between
brackets commas end it. -/
def plainWord? (flow : Bool) : List Char → Option (List Char × List Char)
  | [] => some ([], [])
  | c :: cs =>
    if isGap c then some ([], c :: cs)
    else if flow && c == ':' && (cs.head?.map fun d => ",?[]\x7b\x7d".toList.contains d) ==
        some true then
      none
    else if (c == ':' && endsWord cs) || (flow && ",[]\x7b\x7d".toList.contains c) then
      some ([], c :: cs)
    else do
      let (word, rest) ← plainWord? flow cs
      pure (c :: word, rest)

/-- What is read of a plain scalar. -/
structure PlainText where
  text : List Char
  cursor : Cursor
  /-- Whether the line was broken after the last word. -/
  broken : Bool

/-- The text of a plain scalar on from a gap after its last word. Outside of brackets its lines are
indented at least to the given column. -/
def plainText? (flow : Bool) (indent : Nat) : Nat → Gap → Cursor → Option PlainText
  | 0, gap, c => some ⟨[], c, gap.broken⟩
  | fuel + 1, gap, c =>
    if c.atDocumentMark || c.isAt '#' then some ⟨[], c, gap.broken⟩
    else do
      let (word, rest) ← plainWord? flow c.rest
      let after := c.upTo rest
      let broken := word.isEmpty && gap.broken
      if rest.isEmpty || !endsWord rest then
        pure ⟨if word.isEmpty then [] else gap.text ++ word, after, broken⟩
      else
        let (next, c) ← Gap.read indent rest.length (if word.isEmpty then gap else .none) after
        let here := if word.isEmpty then [] else gap.text ++ word
        if !flow && c.column < indent then pure ⟨here, c, next.broken⟩
        else
          let more ← plainText? flow indent fuel next c
          pure { more with text := here ++ more.text }

def plainScalar? (flow : Bool) (indent : Nat) (c : Cursor) : Option PlainText :=
  plainText? flow indent (c.rest.length + 1) .none c

end Orchestration.Yaml
