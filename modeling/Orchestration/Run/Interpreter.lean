import Orchestration.Run.Schedule
import Orchestration.Run.Transition

/-!
# Running workflows

`Workflow.run` runs a workflow against a caller. A workflow may go in circles for ever, so a run is
followed for a number of steps only; one that does not end within them has no execution.
-/

namespace Orchestration

/-- What a run came to: its end, the calls it started, in order, and the milliseconds it took. -/
structure Execution where
  requestId : String
  result : Except RunError Outcome
  calls : List Request
  elapsed : Nat

def Workflow.run (w : Workflow) (limits : Limits) (caller : Caller) (fuel : Nat)
    (requestId : String) (payload : Json) : Option Execution :=
  let env : Environment := ⟨caller, limits.activityTimeout⟩
  let (s, world) := (w.process limits fuel requestId payload).start env ⟨0, []⟩
  (s.settle env fuel world).map fun (result, world) =>
    ⟨requestId, result, world.past.reverse, world.now⟩

end Orchestration
