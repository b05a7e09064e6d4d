/-!
# Characters of YAML text

Blanks, line breaks and word characters, the characters that a text may hold at all
(`isAllowed`), and those that may be written without an escape (`isPrintable`).
-/

namespace Orchestration.Yaml

/-- Blanks inside a line: space and tab. -/
def isBlank (c : Char) : Bool := c == ' ' || c == '\t'

/-- Line breaks: line feed, carriage return, next line, line separator and paragraph separator. -/
def isBreak (c : Char) : Bool :=
  c == '\n' || c == '\r' || c.toNat == 0x85 || c.toNat == 0x2028 || c.toNat == 0x2029

/-- What separates words: blanks and line breaks. -/
def isGap (c : Char) : Bool := isBlank c || isBreak c

/-- Whether a word ends before a text: at a blank, at a line break or at the end of all. -/
def endsWord : List Char → Bool
  | [] => true
  | c :: _ => isGap c

def endsLine : List Char → Bool
  | [] => true
  | c :: _ => isBreak c

/-- The characters of anchors and of the handles of tags. -/
def isWordChar (c : Char) : Bool := c.isAlphanum || c == '_' || c == '-'

/-- Whether a text may hold a character; control characters other than tab
and breaks are excluded. -/
def isAllowed (c : Char) : Bool :=
  let n := c.toNat
  n == 9 || n == 10 || n == 13 || (32 ≤ n && n ≤ 126) || n == 0x85 || (0xA0 ≤ n && n ≤ 0xFFFD) ||
    0x10000 ≤ n

/-- Whether a character is written as it is; all others need an escape. -/
def isPrintable (c : Char) : Bool :=
  let n := c.toNat
  n == 10 || (32 ≤ n && n ≤ 126) || (0xA0 ≤ n && n ≤ 0xFFFD && n != 0xFEFF) || 0x10000 ≤ n

/-- The mark that may stand before the first character of a text. -/
def isOrderMark (c : Char) : Bool := c.toNat == 0xFEFF

/-- Whether a text starts with a mark of a document's start or end, as a word of its own. -/
def atDocumentMark : List Char → Bool
  | '-' :: '-' :: '-' :: rest => endsWord rest
  | '.' :: '.' :: '.' :: rest => endsWord rest
  | _ => false

end Orchestration.Yaml
