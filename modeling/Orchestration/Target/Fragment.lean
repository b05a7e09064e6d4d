import Orchestration.Activity.Resolver
import Orchestration.Target.Error

/-!
# Fragments of documents

A state is encoded as one or more fragments, each under a name of its own. The names of all
fragments of one document differ (`claimNames`). A repeat is encoded as a chain of tasks
(`RepeatState.unrolled`).
-/

namespace Orchestration

abbrev Fragment := String × Json

/-- Takes names for the fragments of a state; a name may be taken only once. -/
def claimNames (target : Target) (state : String) (taken : List String) :
    List String → Except CompileError (List String)
  | [] => .ok taken
  | name :: rest =>
    if taken.contains name then .error (.invalid target state (.nameTaken name))
    else claimNames target state (name :: taken) rest

/-- The name of the task for call number `i` of a repeat. -/
def unrolledName (name : String) (i : Nat) : String :=
  if i = 0 then name else name ++ "_" ++ toString i

/-- The task for call number `i` of a repeat: it goes on to the next call, the last
one to the successor. -/
def RepeatState.unrolledTask (r : RepeatState) (name : String) (i : Nat) : TaskState :=
  ⟨r.activity, if i + 1 < r.count then some (unrolledName name (i + 1)) else r.next⟩

def RepeatState.unrolled (r : RepeatState) (name : String) : List (String × TaskState) :=
  (List.range r.count).map fun i => (unrolledName name i, r.unrolledTask name i)

def addressOf (resolver : Resolver) (activity : String) : Except CompileError String :=
  match resolver.resolve activity with
  | some address => .ok address
  | none => .error (.unresolved activity)

/-- The root task of an element workflow stands for the root map of its branch. -/
abbrev Replacement := Option (String × TaskState)

def replacementOf (replacement : Replacement) (name : String) : Option TaskState :=
  match replacement with
  | some (root, t) => if root = name then some t else none
  | none => none

end Orchestration
