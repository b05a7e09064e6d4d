import Orchestration.Activity.Basic
import Orchestration.Json.Path
import Orchestration.Json.Printer
import Orchestration.Workflow.Basic

/-!
# Failures of runs

A run fails at a state for a cause. If the cause lies in a workflow inside the state, it is itself a
failure at a state of that workflow, and so on inwards.

* `RunError.message` is the text of a failure.
* `RunError.rootCause` is the innermost cause, `RunError.states` the states on the way to it.
* `RunError.snapshot` is what a failure shows for diagnosis.
-/

namespace Orchestration

/-- Why a run, or a part of one, has no result. -/
inductive RunError where
  | path (e : PathError)
  | activity (e : ActivityError)
  | notAnArray (path : String)
  | incomparable (left : Json) (op : Comparison) (right : Json)
  | unknownState (name : String)
  | unsupportedBranch (branch : String) (kind : Kind)
  | depthExceeded (limit : Nat)
  /-- A workflow failed at a state, with this payload. -/
  | failedAt (state : String) (payload : Json) (cause : RunError)

namespace RunError

/-- The text of a cause. A failure inside is named as one of a nested workflow. -/
def causeMessage : RunError → String
  | .failedAt state _ cause =>
    s!"Nested workflow failed: Workflow failed at state '{state}': " ++ cause.causeMessage
  | .path e => e.message
  | .activity e => e.message
  | .notAnArray array => s!"Value at '{array}' is not an array"
  | .incomparable left op right =>
    "Cannot compare " ++ left.compact ++ " " ++ op.symbol ++ " " ++ right.compact
  | .unknownState name => s!"State not found: {name}"
  | .unsupportedBranch branch kind =>
    s!"Parallel branch '{branch}' cannot start with a {kind.name} state"
  | .depthExceeded limit => s!"Nested workflow depth limit {limit} exceeded"

def message : RunError → String
  | .failedAt state _ cause => s!"Workflow failed at state '{state}': " ++ cause.causeMessage
  | e => e.causeMessage

/-- The innermost cause. -/
def rootCause : RunError → RunError
  | .failedAt _ _ cause => cause.rootCause
  | e => e

/-- The states at which the run failed, from the outermost inwards. -/
def states : RunError → List String
  | .failedAt state _ cause => state :: cause.states
  | _ => []

def payloads : RunError → List Json
  | .failedAt _ payload cause => payload :: cause.payloads
  | _ => []

/-- State, payload and innermost cause of a failure, for diagnosis. -/
def snapshot : RunError → Json
  | .failedAt state payload cause =>
    .obj [("state", .str state), ("payload", payload), ("error", .str cause.rootCause.message)]
  | e => .obj [("error", .str e.message)]

end RunError

end Orchestration
