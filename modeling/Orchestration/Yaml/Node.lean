import Orchestration.Yaml.Token.Basic
import Orchestration.Entries

/-!
# YAML nodes

A document is a tree of scalars, sequences and maps. A node may have an anchor, and an alias stands
for the node of an anchor. An anchor is known by a number: how many names of anchors came before it;
a name that comes again counts as known already, so several nodes may have one number.

* `Node.ofTokens?` reads the one document of a text from its tokens.
* `Node.anchored` are the nodes with anchors, in the order of the text.
-/

namespace Orchestration.Yaml

/-- What may be written in front of a node. -/
structure Properties where
  anchor : Option Nat
  tag : Option String

def Properties.none : Properties := ⟨.none, .none⟩

/-- A node of a document. -/
inductive Node where
  /-- Stands for the node with an anchor of the given number. -/
  | alias (number : Nat)
  | scalar (props : Properties) (text : String) (style : ScalarStyle)
  | seq (props : Properties) (items : List Node)
  | map (props : Properties) (entries : List (Node × Node))

namespace Node

instance : Inhabited Node := ⟨.alias 0⟩

def nothing (props : Properties) : Node := .scalar props "" .plain

/-! ## Views -/

def anchor? : Node → Option Nat
  | .alias _ => none
  | .scalar props _ _ | .seq props _ | .map props _ => props.anchor

mutual

/-- The nodes with anchors, in the order of the text. -/
def anchored : Node → List (Nat × Node)
  | .alias _ => []
  | .scalar props text style => (props.anchor.map fun n => (n, Node.scalar props text style)).toList
  | .seq props items =>
    (props.anchor.map fun n => (n, Node.seq props items)).toList ++ anchoredItems items
  | .map props entries =>
    (props.anchor.map fun n => (n, Node.map props entries)).toList ++ anchoredEntries entries

def anchoredItems : List Node → List (Nat × Node)
  | [] => []
  | n :: rest => n.anchored ++ anchoredItems rest

def anchoredEntries : List (Node × Node) → List (Nat × Node)
  | [] => []
  | (k, v) :: rest => k.anchored ++ (v.anchored ++ anchoredEntries rest)

end

mutual

/-- The number of the parts of a node; a collection has a begin and an end. -/
def size : Node → Nat
  | .alias _ | .scalar _ _ _ => 1
  | .seq _ items => sizeItems items + 2
  | .map _ entries => sizeEntries entries + 2

def sizeItems : List Node → Nat
  | [] => 0
  | n :: rest => n.size + sizeItems rest

def sizeEntries : List (Node × Node) → Nat
  | [] => 0
  | (k, v) :: rest => k.size + v.size + sizeEntries rest

end

/-! ## Reading -/

/-- What is left of the tokens, and the numbers of the names of anchors so far. -/
structure Reader where
  tokens : List Token
  anchors : Entries Nat

/-- Reads from tokens, or fails. -/
abbrev Reading := StateT Reader Option

namespace Reading

def fail {α : Type} : Reading α := fun _ => none

def peek : Reading (Option Token) := do pure (← get).tokens.head?

def skip : Reading Unit := modify fun r => { r with tokens := r.tokens.drop 1 }

/-- Goes over a token that has to be the given one. -/
def expect (t : Token) : Reading Unit := do
  if (← peek) == some t then skip else fail

/-- Whether the next token is one of the given ones. -/
def isNext (ts : List Token) : Reading Bool := do
  match ← peek with
  | some t => pure (ts.contains t)
  | none => pure false

/-- The number of a name of an anchor, which is a new one if the name was not there. -/
def declare (name : String) : Reading Nat := do
  let r ← get
  let n := r.anchors.length
  set { r with anchors := r.anchors.insert name n }
  pure n

/-- The number that the name of an alias has. -/
def resolve (name : String) : Reading Nat := do
  match Entries.get? name (← get).anchors with
  | some n => pure n
  | none => fail

end Reading

open Reading

abbrev Handles := Entries String

/-- What handles stand for where no directive says otherwise. -/
def standardHandles : Handles := [("!", "!"), ("!!", "tag:yaml.org,2002:")]

/-- The tag that a handle and a suffix make. -/
def tagOf (handles : Handles) (handle suffix : String) : Reading String :=
  if handle.isEmpty then pure suffix
  else
    match Entries.get? handle handles with
    | some head => pure (head ++ suffix)
    | none => fail

/-- An anchor, if one is next. -/
def anchorProperty : Reading (Option Nat) := do
  match ← peek with
  | some (.anchor name) => do
    skip
    pure (some (← declare name))
  | _ => pure none

/-- A tag, if one is next. -/
def tagProperty (handles : Handles) : Reading (Option String) := do
  match ← peek with
  | some (.tag handle suffix) => do
    skip
    pure (some (← tagOf handles handle suffix))
  | _ => pure none

/-- The properties in front of a node, in either order. -/
def properties (handles : Handles) : Reading Properties := do
  match ← anchorProperty with
  | some anchor => pure ⟨some anchor, ← tagProperty handles⟩
  | none => do
    let tag ← tagProperty handles
    pure ⟨← if tag.isSome then anchorProperty else pure none, tag⟩

/-- Where a node stands. -/
inductive Place where
  /-- Outside of brackets. -/
  | block
  /-- Outside of brackets in a map, whose column the items of a sequence may share. -/
  | entry
  | flow
deriving DecidableEq

mutual

def read (handles : Handles) : Nat → Place → Reading Node
  | 0, _ => fail
  | fuel + 1, place => do
    match ← peek with
    | some (.alias name) => do
      skip
      pure (.alias (← resolve name))
    | _ => do
      let props ← properties handles
      match ← peek with
      | some (.scalar text style) => do
        skip
        pure (.scalar props text style)
      | some .flowSeqStart => do
        skip
        pure (.seq props (← flowItems handles fuel true))
      | some .flowMapStart => do
        skip
        pure (.map props (← flowEntries handles fuel true))
      | some .blockEntry =>
        if place = .entry then pure (.seq props (← entryItems handles fuel))
        else absent props
      | some .blockSeqStart =>
        if place = .flow then absent props
        else do
          skip
          pure (.seq props (← blockItems handles fuel))
      | some .blockMapStart =>
        if place = .flow then absent props
        else do
          skip
          pure (.map props (← blockEntries handles fuel))
      | _ => absent props
where
  /-- A node that is not written, which is one only if it has properties. -/
  absent (props : Properties) : Reading Node :=
    if props.anchor.isSome || props.tag.isSome then pure (nothing props) else fail

/-- Reads a node, or nothing if one of the given tokens is next. -/
def readUnless (handles : Handles) : Nat → Place → List Token → Reading Node
  | 0, _, _ => fail
  | fuel + 1, place, ends => do
    if ← isNext ends then pure (nothing .none) else read handles fuel place

def blockItems (handles : Handles) : Nat → Reading (List Node)
  | 0 => fail
  | fuel + 1 => do
    if ← isNext [.blockEnd] then
      skip
      pure []
    else do
      expect .blockEntry
      let item ← readUnless handles fuel .block [.blockEntry, .blockEnd]
      pure (item :: (← blockItems handles fuel))

/-- The items of a sequence that shares the column of the map around it. -/
def entryItems (handles : Handles) : Nat → Reading (List Node)
  | 0 => fail
  | fuel + 1 => do
    if ← isNext [.blockEntry] then
      skip
      let item ← readUnless handles fuel .block [.blockEntry, .key, .value, .blockEnd]
      pure (item :: (← entryItems handles fuel))
    else pure []

def blockEntries (handles : Handles) : Nat → Reading (List (Node × Node))
  | 0 => fail
  | fuel + 1 => do
    if ← isNext [.blockEnd] then
      skip
      pure []
    else do
      expect .key
      let k ← readUnless handles fuel .entry [.key, .value, .blockEnd]
      let v ← blockValue handles fuel
      pure ((k, v) :: (← blockEntries handles fuel))

def blockValue (handles : Handles) : Nat → Reading Node
  | 0 => fail
  | fuel + 1 => do
    if ← isNext [.value] then
      skip
      readUnless handles fuel .entry [.key, .value, .blockEnd]
    else pure (nothing .none)

/-- The items of a sequence in brackets; all but the first follow a comma. -/
def flowItems (handles : Handles) : Nat → Bool → Reading (List Node)
  | 0, _ => fail
  | fuel + 1, first => do
    if ← isNext [.flowSeqEnd] then
      skip
      pure []
    else do
      if !first then expect .flowEntry
      if ← isNext [.flowSeqEnd] then
        skip
        pure []
      else if ← isNext [.key] then
        skip
        let entry ← flowPair handles fuel
        pure (.map .none [entry] :: (← flowItems handles fuel false))
      else do
        let item ← read handles fuel .flow
        pure (item :: (← flowItems handles fuel false))

/-- An entry that is an item of a sequence; its mark is read. An empty key
swallows the mark after it. -/
def flowPair (handles : Handles) : Nat → Reading (Node × Node)
  | 0 => fail
  | fuel + 1 => do
    let k ← if ← isNext [.value, .flowEntry, .flowSeqEnd] then do
        skip
        pure (nothing .none)
      else read handles fuel .flow
    let v ← flowValue handles fuel [.flowEntry, .flowSeqEnd]
    pure (k, v)

def flowValue (handles : Handles) : Nat → List Token → Reading Node
  | 0, _ => fail
  | fuel + 1, ends => do
    if ← isNext [.value] then
      skip
      readUnless handles fuel .flow ends
    else pure (nothing .none)

/-- The entries of a map in brackets; all but the first follow a comma. -/
def flowEntries (handles : Handles) : Nat → Bool → Reading (List (Node × Node))
  | 0, _ => fail
  | fuel + 1, first => do
    if ← isNext [.flowMapEnd] then
      skip
      pure []
    else do
      if !first then expect .flowEntry
      if ← isNext [.flowMapEnd] then
        skip
        pure []
      else if ← isNext [.key] then
        skip
        let k ← readUnless handles fuel .flow [.value, .flowEntry, .flowMapEnd]
        let v ← flowValue handles fuel [.flowEntry, .flowMapEnd]
        pure ((k, v) :: (← flowEntries handles fuel false))
      else do
        let k ← read handles fuel .flow
        pure ((k, nothing .none) :: (← flowEntries handles fuel false))

end

/-! ## Documents -/

/-- Whether a version is one that can be read. -/
def isKnownVersion (major minor : Nat) : Bool := major == 1 && (minor == 1 || minor == 2)

/-- The handles that directives declare; a version and each handle may be declared once. -/
def directives : Nat → (versioned : Bool) → Handles → Reading Handles
  | 0, _, _ => fail
  | fuel + 1, versioned, handles => do
    match ← peek with
    | some (.version major minor) =>
      if versioned || !isKnownVersion major minor then fail
      else do
        skip
        directives fuel true handles
    | some (.handle name head) =>
      if Entries.contains name handles then fail
      else do
        skip
        directives fuel versioned (handles ++ [(name, head)])
    | _ => pure handles

/-- Whether a token begins a document with a mark. -/
def beginsDocument : Token → Bool
  | .version _ _ | .handle _ _ | .documentStart => true
  | _ => false

def isDocumentEmpty : Option Token → Bool
  | none => true
  | some t => beginsDocument t || t == .documentEnd

/-- Reads the first document, if there is one. -/
def firstDocument (fuel : Nat) : Reading (Option Node) := do
  match ← peek with
  | none => pure none
  | some t =>
    if beginsDocument t then do
      let handles ← directives fuel false []
      expect .documentStart
      let content ← if isDocumentEmpty (← peek) then pure (nothing .none)
        else read (handles ++ standardHandles) fuel .block
      pure (some content)
    else some <$> read standardHandles fuel .block

/-- The one document of a text, if it has one, from its tokens. -/
def ofTokens? (ts : List Token) : Option (Option Node) := do
  let (n, r) ← (firstDocument (4 * ts.length + 8)).run ⟨ts, []⟩
  if (r.tokens.dropWhile (· == .documentEnd)).isEmpty then pure n else none

end Node

end Orchestration.Yaml
