import Orchestration.Json.Printer
import Orchestration.Workflow.Basic

/-!
# Targets and why a workflow does not fit one

A workflow can be turned into documents for three kinds of services.
`CompileError` is why that fails.
-/

namespace Orchestration

/-- A kind of service that runs workflows. -/
inductive Target where
  | stepFunctions
  | workflows
  | durable
deriving DecidableEq

namespace Target

def name : Target → String
  | .stepFunctions => "step-functions"
  | .workflows => "workflows"
  | .durable => "durable"

def all : List Target := [.stepFunctions, .workflows, .durable]

end Target

/-- What stands in the way of encoding a state. -/
inductive Obstacle where
  /-- Two parts of the document would have one name. -/
  | nameTaken (name : String)
  | noComparator (op : Comparison) (val : Json)
  | undeclaredRoot (root : String)
  /-- A chain of tasks comes back to a state. -/
  | cycle
  | notEncoded

def Obstacle.message : Obstacle → String
  | .nameTaken name => s!"generated name '{name}' is already taken"
  | .noComparator op val => s!"no comparator for {op.symbol} " ++ val.compact
  | .undeclaredRoot root => s!"branch root '{root}' is not declared"
  | .cycle => "task chain loops back on itself"
  | .notEncoded => "no encoded line for state"

/-- Why a workflow cannot be turned into documents. -/
inductive CompileError where
  | unsupported (target : Target) (kind : Kind) (state : String)
  /-- An activity has no address. -/
  | unresolved (activity : String)
  | invalid (target : Target) (state : String) (obstacle : Obstacle)
  /-- The document is not one that the target has a text for. -/
  | notText (document : Json)

def CompileError.message : CompileError → String
  | .unsupported target kind state =>
    s!"{target.name} backend cannot encode {kind.name} state '{state}'"
  | .unresolved activity => s!"No resource configured for activity '{activity}'"
  | .invalid target state obstacle =>
    s!"{target.name} backend cannot encode state '{state}': " ++ obstacle.message
  | .notText document =>
    "Failed to export document: expected orchestrator source, got " ++ document.compact

end Orchestration
