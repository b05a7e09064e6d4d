import Orchestration.Json.Order
import Orchestration.Text.Blank
import Orchestration.Text.Pieces

/-!
# Workflows

A workflow is a root and states by name. Each state says what happens to the payload and which state
comes next; a state without a successor ends the workflow. Map states and the branches of parallel
states hold workflows of their own.

* `State.targets` lists the states that a state may go on to.
* `Branch.key` is the name under which the result of a branch is found.
* `Branch.elementWorkflow` is what each element goes through when a branch starts with a
  map that has a successor.
-/

namespace Orchestration

/-! ## The states that hold no workflow -/

/-- Calls one activity; its answer is the new payload. -/
structure TaskState where
  activity : String
  next : Option String
deriving DecidableEq

/-- One case of a switch: go to `next` if the value at `var` stands in relation `op` to `val`. -/
structure Case where
  var : String
  op : Comparison
  val : Json
  next : String

/-- Goes to the first case that holds, else to the default. -/
structure SwitchState where
  cases : List Case
  default : Option String

/-- Calls one activity `count` times, each time with the answer before. -/
structure RepeatState where
  activity : String
  count : Nat
  next : Option String
deriving DecidableEq

/-- Calls one activity for each element of an array, one after the other, and drops the answers. -/
structure LoopState where
  activity : String
  array : String
  next : Option String
deriving DecidableEq

/-! ## Workflows and the states that hold some -/

mutual

/-- One step of a workflow. -/
inductive State where
  | task (state : TaskState)
  | switch (state : SwitchState)
  | map (state : MapState)
  | repeat (state : RepeatState)
  | loop (state : LoopState)
  | parallel (state : ParallelState)

/-- A root and states by name, in the order in which they were declared. -/
structure Workflow where
  root : String
  states : List (String × State)

/-- What a map does with each element: one call, or a workflow. -/
inductive MapBody where
  | activity (name : String)
  | workflow (body : Workflow)

/-- Runs the body for each element of an array and writes the results back to it. With common
parameters each element comes with the values at these paths. -/
structure MapState where
  body : MapBody
  array : String
  commonParams : Option String
  maxConcurrency : Option Nat
  next : Option String

/-- Runs its branches side by side and collects their results by key. -/
structure ParallelState where
  branches : List Branch
  next : Option String

/-- A workflow inside a parallel state. -/
structure Branch where
  name : Option String
  workflow : Workflow

end

/-- The kind of a state. -/
inductive Kind where
  | task
  | switch
  | map
  | repeat
  | loop
  | parallel
deriving DecidableEq

namespace Kind

/-- All kinds, in the order in which a definition may name them. -/
def all : List Kind := [.task, .switch, .map, .repeat, .loop, .parallel]

def name : Kind → String
  | .task => "task"
  | .switch => "switch"
  | .map => "map"
  | .repeat => "repeat"
  | .loop => "loop"
  | .parallel => "parallel"

end Kind

namespace MapBody

/-- The activity of a body that is a single call. -/
def activity? : MapBody → Option String
  | .activity name => some name
  | .workflow _ => none

def isNested : MapBody → Bool
  | .activity _ => false
  | .workflow _ => true

end MapBody

namespace MapState

/-- The paths of the common parameters, which are listed with commas between them. -/
def paramPaths (m : MapState) : List String :=
  match m.commonParams with
  | none => []
  | some list => ((Text.split ',' list).map Text.trim).filter (fun p => !p.isEmpty)

end MapState

namespace State

def kind : State → Kind
  | .task _ => .task
  | .switch _ => .switch
  | .map _ => .map
  | .repeat _ => .repeat
  | .loop _ => .loop
  | .parallel _ => .parallel

/-- The successor that does not depend on the payload, if there is one. -/
def next? : State → Option String
  | .task s => s.next
  | .switch _ => none
  | .map s => s.next
  | .repeat s => s.next
  | .loop s => s.next
  | .parallel s => s.next

/-- All states that this one may go on to. -/
def targets : State → List String
  | .switch s => s.cases.map Case.next ++ s.default.toList
  | s => s.next?.toList

end State

namespace Workflow

instance : Inhabited Workflow := ⟨⟨"", []⟩⟩

def state? (w : Workflow) (name : String) : Option State := Entries.get? name w.states

def declares (w : Workflow) (name : String) : Bool := (w.state? name).isSome

def rootState? (w : Workflow) : Option State := w.state? w.root

end Workflow

namespace Branch

/-- The key of the branch's result: the name of the branch, else the activity at its root if there
is just one, else the name of its root. -/
def key (b : Branch) : String :=
  match b.name with
  | some name => name
  | none =>
    match b.workflow.rootState? with
    | some (.task t) => t.activity
    | some (.map m) => m.body.activity?.getD b.workflow.root
    | _ => b.workflow.root

/-- The task that stands for the root map of a branch when the map has a successor. -/
def elementTask? (b : Branch) : Option TaskState :=
  match b.workflow.rootState? with
  | some (.map m) =>
    match m.next, m.body with
    | some next, .activity name => some ⟨name, some next⟩
    | _, _ => none
  | _ => none

/-- What each element goes through in a branch that starts with a map and goes on after it: the
branch with the map's activity as a task at its root. -/
def elementWorkflow (b : Branch) : Option Workflow :=
  b.elementTask?.map fun t =>
    { b.workflow with states := Entries.insert b.workflow.root (.task t) b.workflow.states }

end Branch

/-! ## Equality -/

/-- Whether two cases are equal up to the equality of JSON values. -/
def Case.same (a b : Case) : Bool :=
  a.var == b.var && a.op == b.op && a.val.same b.val && a.next == b.next

mutual

/-- Whether two states are equal; the order of the states of the workflows in
them does not matter. -/
def State.same : State → State → Bool
  | .task a, .task b => a == b
  | .switch a, .switch b =>
    a.default == b.default && a.cases.length == b.cases.length &&
      (a.cases.zip b.cases).all fun (x, y) => x.same y
  | .map a, .map b => a.same b
  | .repeat a, .repeat b => a == b
  | .loop a, .loop b => a == b
  | .parallel a, .parallel b => a.same b
  | _, _ => false

/-- Whether two workflows have the same root and, name by name, the same states. -/
def Workflow.same : Workflow → Workflow → Bool
  | ⟨root, states⟩, w =>
    root == w.root && states.length == w.states.length && sameStates states w.states

/-- Whether each state of the first list has an equal one under its name in the second. -/
def sameStates : List (String × State) → List (String × State) → Bool
  | [], _ => true
  | (k, a) :: rest, bs =>
    (match Entries.get? k bs with
      | some b => a.same b
      | none => false) && sameStates rest bs

def MapBody.same : MapBody → MapBody → Bool
  | .activity a, .activity b => a == b
  | .workflow a, .workflow b => a.same b
  | _, _ => false

def MapState.same : MapState → MapState → Bool
  | ⟨body, array, commonParams, maxConcurrency, next⟩, m =>
    body.same m.body && array == m.array && commonParams == m.commonParams &&
      maxConcurrency == m.maxConcurrency && next == m.next

def ParallelState.same : ParallelState → ParallelState → Bool
  | ⟨branches, next⟩, p => next == p.next && sameBranches branches p.branches

/-- Whether two lists of branches are equal one by one. -/
def sameBranches : List Branch → List Branch → Bool
  | [], [] => true
  | a :: as, b :: bs => a.same b && sameBranches as bs
  | _, _ => false

def Branch.same : Branch → Branch → Bool
  | ⟨name, workflow⟩, b => name == b.name && workflow.same b.workflow

end

end Orchestration
