import Orchestration.Workflow.Basic

/-!
# Validation of workflows

`Workflow.validate` accepts a workflow whose references all resolve and whose states can be run. It
goes through the states in the order of their declaration, into the workflows inside them, and
reports the first fault.
-/

namespace Orchestration

/-- What makes a declared state one that cannot be run. -/
inductive Defect where
  | repeatCount
  | concurrency
  | noBranches
  | branchRoot (root : String) (kind : Kind)
  | branchKey (key : String)
deriving DecidableEq

def Defect.message : Defect → String
  | .repeatCount => "repeat count must be at least 1"
  | .concurrency => "max_concurrency must be at least 1"
  | .noBranches => "parallel state has no branches"
  | .branchRoot root kind =>
    let start := s!"branch '{root}' starts with a {kind.name} state; "
    start ++ "branches must start with a task or a single-activity map"
  | .branchKey key => s!"duplicate branch key '{key}'"

/-- Why a workflow is not accepted. -/
inductive ValidationError where
  | unknownRoot (root : String)
  | unknownTarget (state target : String)
  | invalid (state : String) (defect : Defect)
deriving DecidableEq

def ValidationError.message : ValidationError → String
  | .unknownRoot root => s!"Root state not found: {root}"
  | .unknownTarget state target => s!"State '{state}' references undeclared state '{target}'"
  | .invalid state defect => s!"Invalid state '{state}': {defect.message}"

/-- The first name of a list that is not declared. -/
def firstUndeclared (declared : List String) (targets : List String) : Option String :=
  targets.find? fun t => !declared.contains t

/-- What is wrong with the root of a branch, if anything. -/
def Branch.rootFault? (state : String) (b : Branch) : Option ValidationError :=
  match b.workflow.rootState? with
  | some (.task _) => none
  | some (.map m) =>
    if m.body.isNested then some (.invalid state (.branchRoot b.workflow.root .map)) else none
  | some s => some (.invalid state (.branchRoot b.workflow.root s.kind))
  | none => some (.unknownRoot b.workflow.root)

mutual

/-- Accepts a workflow or names its first fault. -/
def Workflow.validate : Workflow → Except ValidationError Unit
  | ⟨root, states⟩ =>
    if Entries.contains root states then validateStates (Entries.keys states) states
    else .error (.unknownRoot root)

/-- Validates states of a workflow that declares the given names. -/
def validateStates (declared : List String) : List (String × State) → Except ValidationError Unit
  | [] => .ok ()
  | (name, state) :: rest =>
    match firstUndeclared declared state.targets with
    | some target => .error (.unknownTarget name target)
    | none => do
      state.validate name
      validateStates declared rest

def State.validate (name : String) : State → Except ValidationError Unit
  | .repeat r => if r.count = 0 then .error (.invalid name .repeatCount) else .ok ()
  | .map m => m.validate name
  | .parallel p => p.validate name
  | .task _ | .switch _ | .loop _ => .ok ()

def MapState.validate (name : String) : MapState → Except ValidationError Unit
  | ⟨body, _, _, maxConcurrency, _⟩ =>
    if maxConcurrency = some 0 then .error (.invalid name .concurrency) else body.validate

def MapBody.validate : MapBody → Except ValidationError Unit
  | .activity _ => .ok ()
  | .workflow body => body.validate

def ParallelState.validate (name : String) : ParallelState → Except ValidationError Unit
  | ⟨[], _⟩ => .error (.invalid name .noBranches)
  | ⟨b :: rest, _⟩ => do
    b.validate name
    validateBranches name [b.key] rest

/-- Validates branches whose keys have to differ from the given ones. -/
def validateBranches (name : String) (keys : List String) :
    List Branch → Except ValidationError Unit
  | [] => .ok ()
  | b :: rest => do
    b.validate name
    if keys.contains b.key then .error (.invalid name (.branchKey b.key))
    else validateBranches name (b.key :: keys) rest

/-- Validates the workflow of a branch, then its root. -/
def Branch.validate (name : String) : Branch → Except ValidationError Unit
  | ⟨bname, workflow⟩ => do
    workflow.validate
    match Branch.rootFault? name ⟨bname, workflow⟩ with
    | some e => .error e
    | none => .ok ()

end

end Orchestration
