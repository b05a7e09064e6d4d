import Orchestration.Definition.Drafts
import Orchestration.Definition.Nodes
import Orchestration.Workflow.Validation

/-!
# Reading definitions

`Workflow.parseJson`, `Workflow.parseYaml` and `Workflow.ofJson` read a definition and validate it.
`DefinitionError` is why a definition is not accepted: it cannot be read, it does not have the form
of a workflow, or it is not a valid one.
-/

namespace Orchestration

open Definition (JsonFault)

/-- Why a file has no text to read. -/
inductive ReadFault where
  | missing
  | directory
  /-- Something on the way to the file is no directory. -/
  | notDirectory
  /-- What is in the file is no text. -/
  | notText
deriving DecidableEq

def ReadFault.message : ReadFault → String
  | .missing => "No such file or directory (os error 2)"
  | .directory => "Is a directory (os error 21)"
  | .notDirectory => "Not a directory (os error 20)"
  | .notText => "stream did not contain valid UTF-8"

/-- Why a definition is not accepted. -/
inductive DefinitionError where
  | json (fault : JsonFault)
  /-- The text is no YAML, or does not have the form of a workflow. -/
  | yaml
  | unreadable (path : String) (fault : ReadFault)
  | unsupportedFormat (format : Option String)
  | invalid (e : ValidationError)

/-- The text of a definition error; what the reader of a text would say in detail is left out. -/
def DefinitionError.message : DefinitionError → String
  | .json .malformed => "Malformed workflow JSON"
  | .json (.mismatch m) => "Malformed workflow JSON: " ++ m.message
  | .yaml => "Malformed workflow YAML"
  | .unreadable path fault => s!"Failed to read workflow definition {path}: " ++ fault.message
  | .unsupportedFormat format => "Unsupported definition format: " ++ format.getD "<none>"
  | .invalid e => e.message

namespace Workflow

/-- A workflow that was read, if it is valid. -/
def checked (w : Workflow) : Except DefinitionError Workflow :=
  match w.validate with
  | .ok () => .ok w
  | .error e => .error (.invalid e)

/-- A fault of a JSON definition as a definition error. -/
def ofRead : Except JsonFault Workflow → Except DefinitionError Workflow
  | .ok w => .ok w
  | .error fault => .error (.json fault)

def parseJson (text : String) : Except DefinitionError Workflow := do
  (← ofRead (Definition.workflowOfText text)).checked

def parseYaml (text : String) : Except DefinitionError Workflow :=
  match Definition.workflowOfYaml? text with
  | some w => w.checked
  | none => .error .yaml

/-- Reads a definition from a value, without validating it. -/
def ofJsonUnchecked (v : Json) : Except DefinitionError Workflow :=
  ofRead (Definition.workflowOfJson v)

def ofJson (v : Json) : Except DefinitionError Workflow := do
  (← ofJsonUnchecked v).checked

end Workflow

end Orchestration
