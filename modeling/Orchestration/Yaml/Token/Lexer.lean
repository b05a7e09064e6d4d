import Orchestration.Yaml.Token.Block
import Orchestration.Yaml.Token.Quoted
import Orchestration.Yaml.Token.Tag

/-!
# Taking a text apart into tokens

`tokens?` is the list of tokens of a text, if it has one.

Outside of brackets the structure follows from the columns: a token further to the right than the
collection around it may begin a new one, and a token further to the left ends those that it is left
of. Whether a scalar is a key shows only at the colon after it; until then its place is kept as a
possible key (`PendingKey`), and its marks are put in front of it later. A key that is not marked as
one stands on one line and has fewer than 1024 characters.
-/

namespace Orchestration.Yaml

/-- A place where a key may have begun. -/
structure PendingKey where
  /-- Whether a colon has to follow, because the place is one where only keys stand. -/
  required : Bool
  /-- The number of tokens before it. -/
  position : Nat
  index : Nat
  line : Nat
  column : Nat

/-- Where taking apart a text has come to. -/
structure Lexer where
  cursor : Cursor
  /-- The tokens so far, the last one first. -/
  taken : List Token
  count : Nat
  /-- The column of the innermost collection outside of brackets, `-1` outside of all. -/
  indent : Int
  /-- The columns of the collections around it. -/
  outer : List Int
  /-- Whether a key may begin here. -/
  keyAllowed : Bool
  /-- The place where a key may have begun, at the innermost level of brackets. -/
  pending : Option PendingKey
  /-- Those places at the levels around it. -/
  outerPending : List (Option PendingKey)

namespace Lexer

def start (text : List Char) : Lexer := ⟨.start text, [], 0, -1, [], true, none, []⟩

def inFlow (l : Lexer) : Bool := !l.outerPending.isEmpty

def push (l : Lexer) (t : Token) : Lexer := { l with taken := t :: l.taken, count := l.count + 1 }

/-- Puts a token in front of those from a position on. -/
def pushAt (l : Lexer) (position : Nat) (t : Token) : Lexer :=
  let later := l.count - position
  { l with taken := l.taken.take later ++ t :: l.taken.drop later, count := l.count + 1 }

/-- Goes on by a number of characters of the line. -/
def advance (l : Lexer) (n : Nat) : Lexer := { l with cursor := l.cursor.advance n }

/-! ## Indentation -/

/-- Begins a collection in a column, if that is further to the right than the one around it. -/
def indentTo (l : Lexer) (column : Nat) (position : Nat) (t : Token) : Lexer :=
  if !l.inFlow && l.indent < column then
    { l.pushAt position t with indent := column, outer := l.indent :: l.outer }
  else l

/-- Ends collections until the innermost one is not to the right of a column. -/
def dedentFrom (l : Lexer) (column : Int) : List Int → Lexer
  | [] => { l with outer := [] }
  | n :: outer =>
    if column < l.indent then dedentFrom { l.push .blockEnd with indent := n } column outer
    else { l with outer := n :: outer }

/-- Ends the collections that are to the right of a column. -/
def dedentTo (l : Lexer) (column : Int) : Lexer :=
  if l.inFlow then l else l.dedentFrom column l.outer

/-! ## Pending keys -/

/-- Whether a place is too far back to be that of a key. -/
def isStale (c : Cursor) (k : PendingKey) : Bool := k.line < c.line || k.index + 1024 < c.index

/-- A place, unless it is too far back; then no key may have been required there. -/
def freshKey? (c : Cursor) : Option PendingKey → Option (Option PendingKey)
  | none => some none
  | some k => if isStale c k then (if k.required then none else some none) else some (some k)

def dropStale? (l : Lexer) : Option Lexer := do
  let pending ← freshKey? l.cursor l.pending
  let outerPending ← l.outerPending.mapM (freshKey? l.cursor)
  pure { l with pending, outerPending }

/-- Drops the innermost place; no key may have been required there. -/
def dropPending? (l : Lexer) : Option Lexer :=
  match l.pending with
  | some k => if k.required then none else some { l with pending := none }
  | none => some l

/-- Keeps the cursor as a place where a key may begin, if one may. -/
def keepPending? (l : Lexer) : Option Lexer :=
  if l.keyAllowed then do
    let l ← l.dropPending?
    let c := l.cursor
    let required := !l.inFlow && l.indent == c.column
    pure { l with pending := some ⟨required, l.count, c.index, c.line, c.column⟩ }
  else some l

/-! ## Tokens -/

/-- Ends all collections and allows no key, as before a directive or a mark of a document. -/
def endDocument? (l : Lexer) : Option Lexer := do
  let l ← (l.dedentTo (-1)).dropPending?
  pure { l with keyAllowed := false }

def documentMark? (l : Lexer) (t : Token) : Option Lexer := do
  let l ← l.endDocument?
  pure ((l.push t).advance 3)

def directiveLine? (l : Lexer) : Option Lexer := do
  let l ← l.endDocument?
  let (t, cursor) ← directive? l.cursor
  pure { l.push t with cursor }

def flowStart? (l : Lexer) (t : Token) : Option Lexer := do
  let l ← l.keepPending?
  let l :=
    { l with pending := none, outerPending := l.pending :: l.outerPending, keyAllowed := true }
  pure ((l.push t).advance 1)

def flowEnd? (l : Lexer) (t : Token) : Option Lexer := do
  let l ← l.dropPending?
  let l := match l.outerPending with
    | [] => l
    | k :: outerPending => { l with pending := k, outerPending }
  pure (({ l with keyAllowed := false }.push t).advance 1)

def flowEntry? (l : Lexer) : Option Lexer := do
  let l ← l.dropPending?
  pure (({ l with keyAllowed := true }.push .flowEntry).advance 1)

/-- Begins a collection at the cursor, where a key may begin. -/
def beginHere? (l : Lexer) (t : Token) : Option Lexer :=
  if l.inFlow then some l
  else if l.keyAllowed then some (l.indentTo l.cursor.column l.count t)
  else none

def blockEntry? (l : Lexer) : Option Lexer := do
  let l ← l.beginHere? .blockSeqStart
  let l ← l.dropPending?
  pure (({ l with keyAllowed := true }.push .blockEntry).advance 1)

def markedKey? (l : Lexer) : Option Lexer := do
  let l ← l.beginHere? .blockMapStart
  let l ← l.dropPending?
  pure (({ l with keyAllowed := !l.inFlow }.push .key).advance 1)

/-- A colon after a key: after a pending one, whose marks are put in front of it,
or after a marked one. -/
def keyEnd? (l : Lexer) : Option Lexer :=
  match l.pending with
  | some k =>
    let l := (l.pushAt k.position .key).indentTo k.column k.position .blockMapStart
    some (({ l with pending := none, keyAllowed := false }.push .value).advance 1)
  | none => do
    let l ← l.beginHere? .blockMapStart
    pure (({ l with keyAllowed := !l.inFlow }.push .value).advance 1)

/-- A word inside of a line, after which no key begins before the next line. -/
def word? (l : Lexer) (read : Cursor → Option (Token × Cursor)) : Option Lexer := do
  let l ← l.keepPending?
  let (t, cursor) ← read l.cursor
  pure { l.push t with cursor, keyAllowed := false }

def anchor? (make : String → Token) (c : Cursor) : Option (Token × Cursor) := do
  let after := c.advance 1
  let (name, rest) ← anchorName? after.rest
  pure (make name, after.upTo rest)

def tagWord? (flow : Bool) (c : Cursor) : Option (Token × Cursor) := do
  let (t, rest) ← tag? flow c.rest
  pure (t, c.upTo rest)

def quoted? (quote : Char) (c : Cursor) : Option (Token × Cursor) := do
  let (text, after) ← quotedScalar? quote c
  pure (.scalar text .quoted, after)

/-- A block scalar, after which a key may begin. -/
def block? (l : Lexer) (folded : Bool) : Option Lexer := do
  let l ← l.dropPending?
  let (text, cursor) ← blockScalar? folded l.indent l.cursor
  let style : ScalarStyle := if folded then .folded else .literal
  pure { l.push (.scalar text style) with cursor, keyAllowed := true }

/-- A plain scalar, after which a key may begin if the line was broken. -/
def plain? (l : Lexer) : Option Lexer := do
  let l ← l.keepPending?
  let p ← plainScalar? l.inFlow (l.indent + 1).toNat l.cursor
  let t := Token.scalar (String.ofList p.text) .plain
  pure { l.push t with cursor := p.cursor, keyAllowed := p.broken }

/-- Whether a plain scalar may start with the given text. -/
def startsPlain (flow : Bool) : List Char → Bool
  | [] => false
  | '-' :: rest => !(rest.head?.map isBlank).getD false
  | c :: rest =>
    if c == '?' || c == ':' then !flow && !endsWord rest
    else !isGap c && !",[]\x7b\x7d#&*!|>'\"%@`".toList.contains c

/-- Takes the next token off the text; the cursor is at its first character. -/
def next? (l : Lexer) : Option Lexer :=
  let c := l.cursor
  let flow := l.inFlow
  if c.column == 0 && c.isAt '%' then l.directiveLine?
  else if c.atDocumentMark then
    l.documentMark? (if c.isAt '-' then .documentStart else .documentEnd)
  else
    match c.rest with
    | [] => none
    | x :: rest =>
      if x == '[' then l.flowStart? .flowSeqStart
      else if x == '\x7b' then l.flowStart? .flowMapStart
      else if x == ']' then l.flowEnd? .flowSeqEnd
      else if x == '\x7d' then l.flowEnd? .flowMapEnd
      else if x == ',' then l.flowEntry?
      else if x == '-' && endsWord rest then l.blockEntry?
      else if x == '?' && (flow || endsWord rest) then l.markedKey?
      else if x == ':' && (flow || endsWord rest) then l.keyEnd?
      else if x == '*' then l.word? (anchor? .alias)
      else if x == '&' then l.word? (anchor? .anchor)
      else if x == '!' then l.word? (tagWord? flow)
      else if x == '|' && !flow then l.block? false
      else if x == '>' && !flow then l.block? true
      else if x == '\'' || x == '"' then l.word? (quoted? x)
      else if startsPlain flow c.rest then l.plain?
      else none

/-! ## Between tokens -/

/-- Goes over blanks, comments and line breaks. A tab is no blank where a key may begin outside of
brackets. After a line break a key may begin there. -/
def skipGap (l : Lexer) : Nat → Lexer
  | 0 => l
  | fuel + 1 =>
    let blank (x : Char) : Bool := x == ' ' || (x == '\t' && (l.inFlow || !l.keyAllowed))
    let c := (l.cursor.skipWhile blank).skipComment
    match c.lineBreak? with
    | some (_, next) =>
      skipGap { l with cursor := next, keyAllowed := l.keyAllowed || !l.inFlow } fuel
    | none => { l with cursor := c }

/-- Goes over a mark that may stand before the first character. -/
def skipOrderMark (l : Lexer) : Lexer :=
  if (l.cursor.head?.map isOrderMark).getD false then l.advance 1 else l

/-- Ends all collections at the end of the text. -/
def finish? (l : Lexer) : Option (List Token) := do
  let l ← l.endDocument?
  pure l.taken.reverse

/-- The tokens from here on, of so many characters at most. -/
def run? (l : Lexer) : Nat → Option (List Token)
  | 0 => none
  | fuel + 1 => do
    let l ← (l.skipGap (l.cursor.rest.length + 1)).dropStale?
    let l := l.dedentTo l.cursor.column
    if l.cursor.rest.isEmpty then l.finish?
    else
      let l ← l.next?
      run? l fuel

end Lexer

/-- A text without the mark that may stand before it and that belongs to no line. -/
def dropOrderMark : List Char → List Char
  | c :: cs => if isOrderMark c then cs else c :: cs
  | [] => []

def tokens? (text : String) : Option (List Token) :=
  let cs := dropOrderMark text.toList
  if cs.all isAllowed then (Lexer.start cs).skipOrderMark.run? (cs.length + 1) else none

end Orchestration.Yaml
