import Orchestration.Definition.Error
import Orchestration.Text.FileName

/-!
# Definitions in files

The extension of a file's name says in which format the definition in it is.
-/

namespace Orchestration.Workflow

/-- Reads the definition in a file of the given path from what reading the file came to. -/
def ofFile (path : String) (content : Except ReadFault String) : Except DefinitionError Workflow :=
  match content with
  | .error fault => .error (.unreadable path fault)
  | .ok text =>
    match Text.extension? path with
    | some "json" => parseJson text
    | some "yaml" | some "yml" => parseYaml text
    | other => .error (.unsupportedFormat other)

end Orchestration.Workflow
