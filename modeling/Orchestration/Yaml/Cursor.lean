import Orchestration.Yaml.Char

/-!
# Reading positions in a text

A cursor is what is left of a text and where that begins. `Cursor.advance` goes on inside a line,
`Cursor.lineBreak?` goes on to the next line.
-/

namespace Orchestration.Yaml

/-- A position in a text: what is left, and where it begins. -/
structure Cursor where
  rest : List Char
  /-- The number of characters before it. -/
  index : Nat
  line : Nat
  column : Nat

namespace Cursor

def start (text : List Char) : Cursor := ⟨text, 0, 0, 0⟩

/-- Goes on by a number of characters of the line. -/
def advance (c : Cursor) (n : Nat) : Cursor :=
  ⟨c.rest.drop n, c.index + n, c.line, c.column + n⟩

/-- Goes on, inside the line, to where only the given text is left. -/
def upTo (c : Cursor) (rest : List Char) : Cursor := c.advance (c.rest.length - rest.length)

/-- The characters at the cursor that satisfy a predicate, and where they end. -/
def takeWhile (p : Char → Bool) (c : Cursor) : List Char × Cursor :=
  let taken := c.rest.takeWhile p
  (taken, c.advance taken.length)

/-- Goes on to the first character that does not satisfy a predicate. -/
def skipWhile (p : Char → Bool) (c : Cursor) : Cursor := (c.takeWhile p).2

def head? (c : Cursor) : Option Char := c.rest.head?

def isAt (c : Cursor) (x : Char) : Bool := c.head? == some x

def atLineEnd (c : Cursor) : Bool := endsLine c.rest

/-- Whether a mark of a document's start or end begins the line here. -/
def atDocumentMark (c : Cursor) : Bool := c.column == 0 && Yaml.atDocumentMark c.rest

/-- The start of the next line, when so many characters make the line break. -/
def nextLine (c : Cursor) (n : Nat) : Cursor := ⟨c.rest.drop n, c.index + n, c.line + 1, 0⟩

/-- The line break at the cursor as it counts in a text, and the start of the next line. Carriage
returns and next lines count as line feeds. -/
def lineBreak? (c : Cursor) : Option (Char × Cursor) :=
  match c.rest with
  | '\r' :: '\n' :: _ => some ('\n', c.nextLine 2)
  | x :: _ =>
    if x == '\n' || x == '\r' || x.toNat == 0x85 then some ('\n', c.nextLine 1)
    else if isBreak x then some (x, c.nextLine 1)
    else none
  | [] => none

/-- Goes over the line break at the cursor, if there is one. -/
def skipBreak (c : Cursor) : Cursor :=
  match c.lineBreak? with
  | some (_, next) => next
  | none => c

/-- Goes over a comment, if one starts here. -/
def skipComment (c : Cursor) : Cursor := if c.isAt '#' then c.skipWhile (!isBreak ·) else c

end Cursor

/-! ## Gaps between words -/

/-- Blanks and line breaks between two words. -/
structure Gap where
  /-- The blanks, as long as there is no line break. -/
  blanks : List Char
  breaks : List Char
  /-- Whether the line was broken. -/
  broken : Bool

namespace Gap

def none : Gap := ⟨[], [], false⟩

/-- A line break that does not count. -/
def escaped : Gap := ⟨[], [], true⟩

/-- A gap with one more blank; blanks around a line break do not count. -/
def addBlank (g : Gap) (c : Char) : Gap :=
  if g.broken then g else { g with blanks := g.blanks ++ [c] }

def addBreak (g : Gap) (c : Char) : Gap := ⟨[], g.breaks ++ [c], true⟩

/-- What a gap counts as between two words: a single line feed is a space, of more of them the first
is dropped; a break of another kind stays. -/
def text (g : Gap) : List Char :=
  match g.breaks with
  | [] => g.blanks
  | ['\n'] => [' ']
  | '\n' :: more => more
  | breaks => breaks

/-- What a gap counts as that starts with a line break that does not count. -/
def textAfterEscape (g : Gap) : List Char := g.breaks

/-- Reads blanks and line breaks on from a gap. No tab may stand in a line before the given column
once the line was broken. -/
def read (indent : Nat) : Nat → Gap → Cursor → Option (Gap × Cursor)
  | 0, g, c => some (g, c)
  | fuel + 1, g, c =>
    match c.lineBreak?, c.head? with
    | some (b, next), _ => read indent fuel (g.addBreak b) next
    | Option.none, some x =>
      if isBlank x then
        if x == '\t' && g.broken && c.column < indent then Option.none
        else read indent fuel (g.addBlank x) (c.advance 1)
      else some (g, c)
    | Option.none, Option.none => some (g, c)

end Gap

end Orchestration.Yaml
