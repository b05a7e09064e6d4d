import Orchestration.Yaml.Node
import Orchestration.Yaml.Token.Lexer

/-!
# Documents with aliases

`Document.ofText?` reads the one document of a text. What stands for the place of an alias is found
by `follow`; an alias stands for the last node with the number of its anchor. Aliases may be
followed only so often in all, so that a short text does not stand for a huge value.
-/

namespace Orchestration.Yaml

/-- A document: its tree, and the nodes that aliases can stand for. -/
structure Document where
  root : Node
  /-- The nodes with anchors, the last one first. -/
  targets : List (Nat × Node)

namespace Document

/-- The document of a tree; one that is missing counts as a place where nothing is written. -/
def ofNode (n : Option Node) : Document :=
  let root := n.getD (.nothing .none)
  ⟨root, root.anchored.reverse⟩

def ofText? (text : String) : Option Document := do
  let ts ← tokens? text
  pure (.ofNode (← Node.ofTokens? ts))

/-- How often aliases may be followed in reading a document. -/
def budget (d : Document) : Nat := d.root.size * 100

/-- Reads a document, with so many aliases left to follow. -/
abbrev Reading := StateT Nat Option

namespace Reading

def fail {α : Type} : Reading α := fun _ => none

def ofOption {α : Type} : Option α → Reading α
  | some a => pure a
  | none => fail

def spend : Reading Unit := fun left => if left = 0 then none else some ((), left - 1)

end Reading

open Reading

/-- The node that stands in a place: an alias is replaced by its node. -/
def follow (d : Document) : Node → Reading Node
  | .alias n => do
    spend
    ofOption (d.targets.lookup n)
  | n => pure n

def text (d : Document) (n : Node) : Reading String := do
  match ← d.follow n with
  | .scalar _ text _ => pure text
  | _ => fail

/-- The entries of a map; where nothing is written there are none. -/
def entries (d : Document) (n : Node) : Reading (List (Node × Node)) := do
  match ← d.follow n with
  | .map _ entries => pure entries
  | .scalar _ "" .plain => pure []
  | _ => fail

def read {α : Type} (d : Document) (reading : Reading α) : Option α :=
  (reading.run d.budget).map Prod.fst

end Document

/-! ## Values of scalars -/

/-- Whether a tag is one of the document's own. -/
def isLocalTag (tag : Option String) : Bool := (tag.map fun t => t.startsWith "!").getD false

/-- The tag of the standard schema with the given name. -/
def schemaTag (name : String) : String := "tag:yaml.org,2002:" ++ name

/-- The tags of the standard schema that say what a scalar stands for. -/
inductive SchemaKind where
  | bool
  | int
  | float
  | null
deriving DecidableEq

/-- What a tag says that a scalar stands for. -/
def SchemaKind.ofTag? (tag : String) : Option SchemaKind :=
  if tag = schemaTag "bool" then some .bool
  else if tag = schemaTag "int" then some .int
  else if tag = schemaTag "float" then some .float
  else if tag = schemaTag "null" then some .null
  else none

/-- What a text stands for as a scalar of the given kind. -/
def SchemaKind.read? (s : String) : SchemaKind → Option Plain
  | .bool => (Plain.bool? s).map .bool
  | .int => Plain.int? s
  | .float => Plain.float? s
  | .null => if Plain.isNull s then some .null else none

/-- What a scalar stands for by its tag, or else by its style. -/
def scalarValue? (tag : Option String) (text : String) (style : ScalarStyle) : Option Plain :=
  match tag with
  | some tag =>
    match SchemaKind.ofTag? tag with
    | some kind => kind.read? text
    | none => some .text
  | none => some (if style = .plain then .ofText text else .text)

end Orchestration.Yaml
