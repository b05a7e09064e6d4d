import Orchestration.Workflow.Validation

/-!
# Building workflows

A workflow is built state by state. A state of a name that is there takes the place of the earlier
one. `Workflow.Builder.build` validates what was built.
-/

namespace Orchestration

namespace Workflow

/-- A workflow in the making. -/
structure Builder where
  root : String
  states : Entries State

namespace Builder

def start (root : String) : Builder := ⟨root, []⟩

def state (b : Builder) (name : String) (s : State) : Builder :=
  { b with states := b.states.insert name s }

def task (b : Builder) (name activity : String) (next : Option String) : Builder :=
  b.state name (.task ⟨activity, next⟩)

def repeating (b : Builder) (name activity : String) (count : Nat)
    (next : Option String) : Builder :=
  b.state name (.repeat ⟨activity, count, next⟩)

def loopOver (b : Builder) (name activity array : String) (next : Option String) : Builder :=
  b.state name (.loop ⟨activity, array, next⟩)

/-- Adds a parallel state whose branches have no names. -/
def parallel (b : Builder) (name : String) (branches : List Workflow)
    (next : Option String) : Builder :=
  b.state name (.parallel ⟨branches.map fun w => ⟨none, w⟩, next⟩)

def switch (b : Builder) (name : String) (s : SwitchState) : Builder := b.state name (.switch s)

def map (b : Builder) (name : String) (m : MapState) : Builder := b.state name (.map m)

/-- What was built, not validated. -/
def buildUnchecked (b : Builder) : Workflow := ⟨b.root, b.states⟩

/-- What was built, if it is a valid workflow. -/
def build (b : Builder) : Except ValidationError Workflow := do
  let w := b.buildUnchecked
  w.validate
  pure w

end Builder

end Workflow

namespace SwitchState

/-- A switch without cases. -/
def start : SwitchState := ⟨[], none⟩

def addCase (s : SwitchState) (c : Case) : SwitchState := { s with cases := s.cases ++ [c] }

end SwitchState

namespace MapState

/-- A map over an array, with nothing else said. -/
def ofArray (body : MapBody) (array : String) : MapState := ⟨body, array, none, none, none⟩

end MapState

end Orchestration
