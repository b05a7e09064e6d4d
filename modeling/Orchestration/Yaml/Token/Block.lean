import Orchestration.Yaml.Cursor

/-!
# Block scalars

A block scalar is made of the indented lines after its header. In a literal one all line breaks are
kept, in a folded one the lines are joined; the header says what happens to the breaks at the end.
-/

namespace Orchestration.Yaml

/-- What happens to the line breaks at the end of a block. -/
inductive Chomping where
  /-- The last line keeps its break. -/
  | clip
  /-- No break is kept. -/
  | strip
  /-- All breaks are kept. -/
  | keep
deriving DecidableEq

/-- The header of a block. -/
structure BlockHeader where
  chomping : Chomping
  /-- The indentation of the lines, counted from that of what is around the block. -/
  increment : Option Nat

/-- The sign for what happens to the breaks at the end. -/
def chompingSign? : List Char → Option (Chomping × List Char)
  | '+' :: cs => some (.keep, cs)
  | '-' :: cs => some (.strip, cs)
  | _ => none

/-- A digit for the indentation; it is not zero. -/
def incrementDigit? : List Char → Option (Option Nat × List Char)
  | c :: cs =>
    if c == '0' then none
    else if c.isDigit then some (some (c.toNat - '0'.toNat), cs)
    else some (none, c :: cs)
  | [] => some (none, [])

/-- The signs of a header in either order. -/
def headerSigns? (cs : List Char) : Option (BlockHeader × List Char) :=
  match chompingSign? cs with
  | some (chomping, cs) => do
    let (increment, cs) ← incrementDigit? cs
    pure (⟨chomping, increment⟩, cs)
  | none => do
    let (increment, cs) ← incrementDigit? cs
    match increment, chompingSign? cs with
    | some _, some (chomping, cs) => pure (⟨chomping, increment⟩, cs)
    | _, _ => pure (⟨.clip, increment⟩, cs)

/-- The header at the cursor, and the start of the next line. -/
def blockHeader? (c : Cursor) : Option (BlockHeader × Cursor) := do
  let (header, rest) ← headerSigns? c.rest
  let c := ((c.upTo rest).skipWhile isBlank).skipComment
  if c.atLineEnd then pure (header, c.skipBreak) else none

/-- The breaks of blank lines and the cursor after the indentation of the line after them. -/
structure BlankLines where
  breaks : List Char
  cursor : Cursor
  /-- The deepest indentation. -/
  deepest : Nat

/-- Skips blank lines and the indentation, which has at most so many columns if that is known. -/
def blankLines? (indent : Option Nat) : Nat → Nat → Cursor → Option BlankLines
  | 0, deepest, c => some ⟨[], c, deepest⟩
  | fuel + 1, deepest, c =>
    let blanks := (c.rest.takeWhile (· == ' ')).length
    let c := c.advance (match indent with
      | some n => min blanks (n - c.column)
      | none => blanks)
    let deepest := max deepest c.column
    let inside := match indent with
      | some n => c.column < n
      | none => true
    if inside && c.isAt '\t' then none
    else
      match c.lineBreak? with
      | some (b, next) => do
        let more ← blankLines? indent fuel deepest next
        pure { more with breaks := b :: more.breaks }
      | none => some ⟨[], c, deepest⟩

def betweenLines (folded : Bool) (blankBefore blankAfter : Bool) (last : List Char)
    (breaks : List Char) :
    List Char :=
  if folded && last == ['\n'] && !blankBefore && !blankAfter then
    if breaks.isEmpty then [' '] else breaks
  else last ++ breaks

/-- What stands after the last line of a block. -/
def afterLines (chomping : Chomping) (last breaks : List Char) : List Char :=
  match chomping with
  | .strip => []
  | .clip => last
  | .keep => last ++ breaks

/-- The lines of a block from the cursor on; `last` is the break of the line before,
`breaks` are those of the blank lines after it, and `blankBefore` says whether the line
before starts with a blank. -/
def blockText? (folded : Bool) (chomping : Chomping) (indent : Nat) :
    Nat → (blankBefore : Bool) → (last breaks : List Char) → Cursor → Option (List Char × Cursor)
  | 0, _, _, _, _ => none
  | fuel + 1, blankBefore, last, breaks, c =>
    if c.column = indent ∧ !c.rest.isEmpty then do
      let blank := (c.head?.map isBlank).getD false
      let (line, c) := c.takeWhile (!isBreak ·)
      let (ended, c) := match c.lineBreak? with
        | some (b, next) => ([b], next)
        | none => ([], c)
      let blanks ← blankLines? (some indent) (c.rest.length + 1) 0 c
      let (more, c) ← blockText? folded chomping indent fuel blank ended blanks.breaks blanks.cursor
      pure (betweenLines folded blankBefore blank last breaks ++ (line ++ more), c)
    else some (afterLines chomping last breaks, c)

/-- The block whose indicator is at the cursor, inside of a collection of the given
indentation, `-1` outside of all. -/
def blockScalar? (folded : Bool) (around : Int) (c : Cursor) : Option (String × Cursor) := do
  let (header, c) ← blockHeader? (c.advance 1)
  let known := header.increment.map fun n => (if 0 ≤ around then around.toNat else 0) + n
  let blanks ← blankLines? known (c.rest.length + 1) 0 c
  let indent := known.getD (max blanks.deepest (max (around + 1).toNat 1))
  let (text, c) ← blockText? folded header.chomping indent (blanks.cursor.rest.length + 1) false []
    blanks.breaks blanks.cursor
  pure (String.ofList text, c)

end Orchestration.Yaml
