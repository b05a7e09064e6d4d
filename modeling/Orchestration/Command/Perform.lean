import Orchestration.Activity.Http
import Orchestration.Command.Arguments
import Orchestration.Command.Host
import Orchestration.Definition.File
import Orchestration.Run.Interpreter
import Orchestration.Settings
import Orchestration.Target.Compiler

/-!
# Performing the command

`perform` does on a host what the command is asked to do, up to the first error.
-/

namespace Orchestration.Command

/-- Why the command came to no good end. -/
inductive CommandError where
  | settings (e : SettingsError)
  | definition (e : DefinitionError)
  | run (e : RunError)
  /-- The run was not followed to its end. -/
  | unfinished
  | compile (e : CompileError)
  | notMade (directory : String)
  | notWritten (path : String)

def CommandError.message : CommandError → String
  | .settings e => e.message
  | .definition e => e.message
  | .run e => e.message
  | .unfinished => "Workflow did not finish"
  | .compile e => e.message
  | .notMade directory => s!"Failed to create {directory}"
  | .notWritten path => s!"Failed to write {path}"

variable {m : Type → Type} [Monad m]

abbrev Performing (m : Type → Type) := ExceptT CommandError m

/-- Goes on if nothing is wrong. -/
def orFail {ε α : Type} (wrap : ε → CommandError) : Except ε α → Performing m α
  | .ok a => pure a
  | .error e => throw (wrap e)

/-- Goes on if something could be done. -/
def ensure (e : CommandError) (done : Bool) : Performing m Unit := if done then pure () else throw e

/-- The settings of a file, or the defaults without one. -/
def loadSettings (h : Host m) : Option String → Performing m Settings
  | none => pure {}
  | some file => do orFail .settings (Settings.ofFile file (← h.read file))

def loadWorkflow (h : Host m) (file : String) : Performing m Workflow := do
  orFail .definition (Workflow.ofFile file (← h.read file))

/-! ## Actions -/

def executionText (requestId : String) (o : Outcome) : String :=
  (Json.obj [("request_id", .str requestId), ("payload", o.payload),
    ("trace", .arr (o.trace.map .str))]).pretty

/-- Runs a workflow, followed for so many steps, and prints what it comes to. -/
def performRun (h : Host m) (fuel : Nat) (settings : RunSettings) (caller : Caller) (w : Workflow)
    (payload : Json) (requestId : Option String) : Performing m Unit := do
  let id ← match requestId with
    | some id => pure id
    | none => h.freshId
  match w.run settings.limits caller fuel id payload with
  | none => throw .unfinished
  | some e => do
    let o ← orFail .run e.result
    h.print (executionText id o ++ "\n")

def documentStem (file : String) : String := (Text.stem? file).getD "workflow"

/-- A compiler for a target as the settings say. -/
def compilerFor (settings : Settings) (target : Target) (documentId : Option String)
    (stem : String) :
    Compiler :=
  let resolver := match target with
    | .stepFunctions => settings.compiler.resolver
    | _ => settings.activities.resolver
  .fresh target resolver ((documentId.or settings.compiler.workflowPrefix).getD stem)

def joinPath (directory file : String) : String :=
  if file.startsWith "/" then file
  else if directory.endsWith "/" then directory ++ file
  else directory ++ "/" ++ file

def writeDocuments (h : Host m) (directory : String) (documents : List (String × String)) :
    Performing m Unit := do
  ensure (.notMade directory) (← h.makeDirectory directory)
  documents.forM fun (file, content) => do
    let path := joinPath directory file
    ensure (.notWritten path) (← h.write path content)

/-- Prints documents, each under its name if there are several. -/
def printDocuments (h : Host m) (documents : List (String × String)) : Performing m Unit :=
  documents.forM fun (file, content) => do
    if 1 < documents.length then h.print s!"# {file}\n"
    h.print (content ++ "\n")

def summary (file : String) (w : Workflow) : String :=
  s!"{file}: ok ({w.states.length} states, root '{w.root}')\n"

/-- Does what the command is asked to do. Calls go to a network, unless they are echoed. -/
def perform (h : Host m) (network : Network) (fuel : Nat) (asked : Invocation) :
    Performing m Unit := do
  let settings ← loadSettings h asked.settingsFile
  match asked.action with
  | .run file payload echo requestId timeoutSecs maxDepth => do
    let w ← loadWorkflow h file
    let limits : RunSettings := { settings.interpreter with
      activityTimeoutSecs := timeoutSecs.getD settings.interpreter.activityTimeoutSecs
      maxDepth := maxDepth.getD settings.interpreter.maxDepth }
    let caller := if echo then .echo else Caller.http settings.activities.resolver network
    performRun h fuel limits caller w payload requestId
  | .generate file target out documentId => do
    let w ← loadWorkflow h file
    let stem := documentStem file
    let documents ← orFail .compile ((compilerFor settings target documentId stem).documents stem w)
    match out with
    | some directory => writeDocuments h directory documents
    | none => printDocuments h documents
  | .validate file => do
    let w ← loadWorkflow h file
    h.print (summary file w)

/-! ## Reports -/

/-- How the command ended. -/
structure Report where
  exitCode : Nat
  /-- What went wrong. -/
  message : Option String

/-- Reads the arguments and does what they ask for. -/
def report (h : Host m) (network : Network) (fuel : Nat) (args : List String) : m Report :=
  match Invocation.parse args with
  | .error .help => pure ⟨0, none⟩
  | .error .usage => pure ⟨2, none⟩
  | .ok asked => do
    match ← (perform h network fuel asked).run with
    | .ok () => pure ⟨0, none⟩
    | .error e => pure ⟨1, some e.message⟩

end Orchestration.Command
