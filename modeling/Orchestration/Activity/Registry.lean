import Orchestration.Activity.Basic
import Orchestration.Entries

/-!
# Registered activities

A registry holds what runs in the same process, by name. Registering a name again replaces what was
there and starts its count of calls anew.
-/

namespace Orchestration

/-- Runs an activity. It is given how many calls it had before. -/
structure Handler where
  execute : Nat → Request → Except String Json
  delay : Nat → Nat

namespace Handler

/-- A function of the payload, which answers at once. -/
def ofFunction (f : Json → Except String Json) : Handler := ⟨fun _ r => f r.payload, fun _ => 0⟩

/-- The response to a call, after so many calls before. -/
def respond (h : Handler) (calls : Nat) (r : Request) : Response :=
  let answer := match h.execute calls r with
    | .ok v => .ok v
    | .error reason => .error (.failed r.activity reason)
  ⟨answer, h.delay calls⟩

end Handler

/-- Activities by name, each with the number of calls it had. -/
structure Registry where
  handlers : Entries (Handler × Nat)

namespace Registry

def empty : Registry := ⟨[]⟩

def register (r : Registry) (name : String) (h : Handler) : Registry :=
  ⟨r.handlers.insert name (h, 0)⟩

def contains (r : Registry) (name : String) : Bool := Entries.contains name r.handlers

/-- How many of these calls are calls of the activity. -/
def callsOf (activity : String) (calls : List Request) : Nat :=
  calls.countP fun r => r.activity == activity

def record (r : Registry) (calls : List Request) : Registry :=
  ⟨r.handlers.map fun (name, h, n) => (name, h, n + callsOf name calls)⟩

def caller (r : Registry) : Caller := fun past request =>
  match Entries.get? request.activity r.handlers with
  | some (h, n) => h.respond (n + callsOf request.activity past) request
  | none => ⟨.error (.unregistered request.activity), 0⟩

def invoke (r : Registry) (request : Request) : Response × Registry :=
  (r.caller [] request, r.record [request])

end Registry

end Orchestration
