import Orchestration.Entries
import Orchestration.Text.Pieces

/-!
# Addresses of activities

A resolver gives the address of an activity: the one that is listed for it, else the template with
the activity's name put in.
-/

namespace Orchestration

/-- Gives addresses of activities. Without a template only listed activities have one. -/
structure Resolver where
  template : Option String
  overrides : Entries String

namespace Resolver

/-- What stands for the activity's name in a template. -/
def marker : String := "\x7bname\x7d"

def resolve (r : Resolver) (activity : String) : Option String :=
  match Entries.get? activity r.overrides with
  | some address => some address
  | none => r.template.map (Text.fill marker activity)

/-- Lists one more address, in place of one that was listed for the same activity. -/
def listing (r : Resolver) (activity address : String) : Resolver :=
  { r with overrides := r.overrides.insert activity address }

end Resolver

end Orchestration
