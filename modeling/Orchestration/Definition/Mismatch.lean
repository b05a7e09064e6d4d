import Orchestration.Json.Printer
import Orchestration.Text.Quoted

/-!
# What does not fit the form of a definition

A definition can be well-formed JSON or YAML and still not have the form of a workflow. `Mismatch`
says in which way; `Mismatch.message` is its text.
-/

namespace Orchestration.Definition

/-- What stands where something else is wanted. -/
inductive Found where
  | null
  | bool (b : Bool)
  | int (n : Int)
  | float (x : Binary64)
  | str (s : String)
  | seq
  | map

/-- What stands there, as messages name it. -/
def Found.text : Found → String
  | .null => "null"
  | .bool b => s!"boolean `{b}`"
  | .int n => s!"integer `{n}`"
  | .float x =>
    let digits := String.ofList (x.toText Json.floatStyle)
    s!"floating point `{digits}`"
  | .str s => "string " ++ Text.quoted s
  | .seq => "sequence"
  | .map => "map"

/-- What is wanted. -/
inductive Wanted where
  | string
  | sequence
  | map
  /-- A number of calls or elements. -/
  | count
  /-- The kind of a state or an operator. -/
  | variant
  /-- The position of a kind or operator in the list of all. -/
  | variantIndex (size : Nat)
  | field
  | operator
  | singleField
  | nothing
  /-- A state, whose kind stands in its `type`. -/
  | state
  | record (name : String)
  /-- A record whose fields are listed in order. -/
  | recordOf (name : String) (size : Nat)
  | elements (size : Nat)
  | fewer

/-- What is wanted, as messages name it. -/
def Wanted.text : Wanted → String
  | .string => "a string"
  | .sequence => "a sequence"
  | .map => "a map"
  | .count => "usize"
  | .variant => "variant identifier"
  | .variantIndex size => s!"variant index 0 <= i < {size}"
  | .field => "field identifier"
  | .operator => "string or map"
  | .singleField => "map with a single key"
  | .nothing => "unit"
  | .state => "internally tagged enum State"
  | .record name => s!"struct {name}"
  | .recordOf name size => s!"struct {name} with {size} elements"
  | .elements 1 => "1 element in sequence"
  | .elements size => s!"{size} elements in sequence"
  | .fewer => "fewer elements in array"

/-- Why a definition does not have the form of a workflow. -/
inductive Mismatch where
  | missing (field : String)
  | duplicate (field : String)
  | wrongType (found : Found) (wanted : Wanted)
  | wrongValue (found : Found) (wanted : Wanted)
  | wrongLength (length : Nat) (wanted : Wanted)
  | unknownVariant (name : String) (known : List String)
  /-- A map with both an activity and a workflow as its body. -/
  | twoBodies
  /-- A map without a body. -/
  | noBody

def quotedNames : List String → String
  | [] => ""
  | [n] => s!"`{n}`"
  | n :: rest => s!"`{n}`, " ++ quotedNames rest

def Mismatch.message : Mismatch → String
  | .missing field => s!"missing field `{field}`"
  | .duplicate field => s!"duplicate field `{field}`"
  | .wrongType found wanted => s!"invalid type: {found.text}, expected {wanted.text}"
  | .wrongValue found wanted => s!"invalid value: {found.text}, expected {wanted.text}"
  | .wrongLength length wanted => s!"invalid length {length}, expected {wanted.text}"
  | .unknownVariant name known =>
    s!"unknown variant `{name}`, expected one of " ++ quotedNames known
  | .twoBodies => "map state declares both `func_name` and `body`"
  | .noBody => "map state needs `func_name` or `body`"

end Orchestration.Definition
