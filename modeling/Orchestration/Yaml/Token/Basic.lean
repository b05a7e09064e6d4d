/-!
# Tokens of YAML text

A token is a word of the text or a bound of its structure. The bounds of indented collections and
the marks of keys do not stand in the text; they follow from its lines.
-/

namespace Orchestration.Yaml

/-- How a scalar is written, as far as that matters for what it stands for. -/
inductive ScalarStyle where
  | plain
  | quoted
  /-- A block whose lines are kept. -/
  | literal
  /-- A block whose lines are joined. -/
  | folded
deriving DecidableEq

/-- A word of a text or a bound of its structure. -/
inductive Token where
  | version (major minor : Nat)
  /-- Says what a handle of tags stands for. -/
  | handle (name head : String)
  | documentStart
  | documentEnd
  | blockSeqStart
  | blockMapStart
  | blockEnd
  | flowSeqStart
  | flowSeqEnd
  | flowMapStart
  | flowMapEnd
  | blockEntry
  | flowEntry
  | key
  | value
  | alias (name : String)
  | anchor (name : String)
  | tag (handle suffix : String)
  | scalar (text : String) (style : ScalarStyle)
deriving DecidableEq

end Orchestration.Yaml
