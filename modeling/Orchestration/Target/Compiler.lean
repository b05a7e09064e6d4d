import Orchestration.Target.StateMachine.Encoding
import Orchestration.Target.StepProgram.Generator
import Orchestration.Target.TaskChain
import Orchestration.Yaml.Printer

/-!
# Compiling for a target

A compiler turns workflows into documents for one target, first as values (`Compiler.encode`), then
as texts (`Compiler.generate`). Only a compiler for step programs keeps something: the bodies that
it lifted and that still wait for documents of their own (`Compiler.generateMaps`).

`Compiler.documents` are all documents of one workflow.
-/

namespace Orchestration

def Target.text : Target → Json → Except CompileError String
  | .stepFunctions, v => .ok v.pretty
  | .workflows, v => .ok v.yaml
  | .durable, v => TaskChain.toText v

/-- The names that every document for a target takes for itself. -/
def Target.reserved : Target → List String
  | .workflows => StepProgram.reserved
  | _ => []

def Target.extension : Target → String
  | .stepFunctions => "asl.json"
  | .workflows => "yaml"
  | .durable => "py"

/-- Turns workflows into documents for a target. -/
structure Compiler where
  target : Target
  steps : StepProgram.Generator

namespace Compiler

/-- A compiler that knows addresses; the ids of lifted bodies begin with the given id. -/
def fresh (target : Target) (resolver : Resolver) (documentId : String) : Compiler :=
  ⟨target, .fresh resolver documentId⟩

def resolver (c : Compiler) : Resolver := c.steps.resolver

def encode (c : Compiler) (w : Workflow) : Except CompileError Json × Compiler :=
  match c.target with
  | .stepFunctions => (Machine.toJson <$> w.machine c.resolver, c)
  | .workflows =>
    let (document, steps) := c.steps.document w
    (document, { c with steps })
  | .durable => (Json.str <$> w.orchestrator, c)

def encodeState (c : Compiler) (name : String) (s : State) :
    Except CompileError (List Fragment) × Compiler :=
  match c.target with
  | .stepFunctions => (StateMachine.encodeState c.resolver name s, c)
  | .workflows =>
    let (fragments, steps) := c.steps.encodeState name s
    (fragments, { c with steps })
  | .durable => (TaskChain.encodeState name s, c)

/-- The document of a workflow whose states have the given fragments. -/
def assemble (c : Compiler) (w : Workflow) (fs : List Fragment) : Except CompileError Json :=
  match c.target with
  | .stepFunctions => .ok (StateMachine.assemble w fs)
  | .workflows => .ok (StepProgram.assemble (c.steps.scope.name w.root) fs)
  | .durable => TaskChain.assemble w fs

def generate (c : Compiler) (w : Workflow) : Except CompileError String × Compiler :=
  let (document, c) := c.encode w
  (document >>= c.target.text, c)

/-- The ids of the bodies that wait for documents. -/
def pendingIds (c : Compiler) : List String := c.steps.pendingIds

/-- The documents of the bodies that wait for them, under their ids. -/
def generateMaps (c : Compiler) : Except CompileError (List (String × String)) × Compiler :=
  let (documents, steps) := c.steps.drain
  let texts := do (← documents).mapM fun (id, v) => do pure (id, ← c.target.text v)
  (texts, { c with steps })

/-- All documents of a workflow under their file names. -/
def documents (c : Compiler) (stem : String) (w : Workflow) :
    Except CompileError (List (String × String)) := do
  let file (name : String) : String := name ++ "." ++ c.target.extension
  let (document, c) := c.generate w
  let first := (file stem, ← document)
  let maps ← c.generateMaps.1
  pure (first :: maps.map fun (id, text) => (file id, text))

end Compiler

end Orchestration
