import Orchestration.Run.Error

/-!
# Processes

What a run still has to do, apart from when: a `Process` is finished, or makes a call and goes on
with its answer, or forks into strands and goes on when they are through. It is built ahead of all
answers, so that what a run does for given answers can be read off it.
-/

namespace Orchestration

/-- The payload that a part of a run ends with, and the states that it visited. -/
structure Outcome where
  payload : Json
  trace : List String

/-- How the strands of a fork run side by side. -/
inductive Width where
  /-- All start at once, and the first failure in time ends the fork. -/
  | all
  /-- At most so many are started and not yet delivered; results and failures
  are delivered in order. -/
  | window (limit : Nat)
deriving DecidableEq

/-- What a run still has to do. -/
inductive Process where
  | done (result : Except RunError Outcome)
  | call (request : Request) (next : Except ActivityError Json → Process)
  | fork (width : Width) (strands : List Process)
      (next : Except RunError (List Outcome) → Process)
  /-- The run was not followed any further. -/
  | exhausted

namespace Process

instance : Inhabited Process := ⟨.exhausted⟩

/-- Ends with a payload, no state visited. -/
def value (payload : Json) : Process := .done (.ok ⟨payload, []⟩)

def fail (e : RunError) : Process := .done (.error e)

def andThen (p : Process) (f : Outcome → Process) : Process :=
  match p with
  | .done (.ok o) => f o
  | .done (.error e) => .done (.error e)
  | .call r next => .call r fun a => (next a).andThen f
  | .fork width strands next => .fork width strands fun r => (next r).andThen f
  | .exhausted => .exhausted

def single (r : Request) : Process :=
  .call r fun
    | .ok v => .value v
    | .error e => .fail (.activity e)

end Process

end Orchestration
