import Orchestration.Json.Basic
import Orchestration.Text.Duration

/-!
# Activities

An activity is called by its name with a payload and answers with a value or fails. What answers
calls is a `Caller`: it knows the calls made before and says what comes back and after how long.
-/

namespace Orchestration

/-- A call of an activity. The request id names the run that it belongs to. -/
structure Request where
  activity : String
  payload : Json
  requestId : String

/-- Why a call has no answer. -/
inductive ActivityError where
  | failed (activity reason : String)
  /-- No answer within so many milliseconds. -/
  | timedOut (activity : String) (after : Nat)
  | unregistered (activity : String)
deriving DecidableEq

def ActivityError.message : ActivityError → String
  | .failed activity reason => s!"Activity '{activity}' failed: {reason}"
  | .timedOut activity after => s!"Activity '{activity}' timed out after " ++ Text.duration after
  | .unregistered activity => s!"Activity not registered: {activity}"

/-- What comes back from a call, after a number of milliseconds. -/
structure Response where
  answer : Except ActivityError Json
  delay : Nat

/-- Answers a call, given the calls that were started before it, the latest first. -/
abbrev Caller := List Request → Request → Response

namespace Caller

def echo : Caller := fun _ r => ⟨.ok r.payload, 0⟩

end Caller

end Orchestration
