import Orchestration.Run.Context
import Orchestration.Run.Process

/-!
# Transitions of workflows

What a workflow does with a payload, as a process. `Workflow.walk` follows the states from the root;
`State.transition` is what one state does.

* A failure carries the state and the payload that the state had when its calls failed. Every
  state but a repeat has the payload with which it started; a repeat has the answer of its
  last call that succeeded.
* All inputs of a state are read from the payload before its first call.
-/

namespace Orchestration

/-- How far a run may go. -/
structure Limits where
  /-- How deep workflows may be nested. -/
  maxDepth : Nat
  /-- How many milliseconds a call may take. -/
  activityTimeout : Option Nat
  /-- How many elements of a map may be under way where the map does not say it itself. -/
  mapConcurrency : Option Nat
deriving DecidableEq

/-! ## Inputs -/

def arrayAt (payload : Json) (path : String) : Except RunError (List Json) :=
  match Path.get payload path with
  | .error e => .error (.path e)
  | .ok v =>
    match v.items? with
    | some items => .ok items
    | none => .error (.notAnArray path)

/-- The values at paths of the payload, under these paths. -/
def sharedParams (payload : Json) : List String → Except RunError (Entries Json)
  | [] => .ok []
  | p :: rest =>
    match Path.get payload p with
    | .error e => .error (.path e)
    | .ok v => do pure ((p, v) :: (← sharedParams payload rest))

/-- The input for an element: the element among the common parameters. -/
def elementInput (shared : Entries Json) (element : Json) : Json :=
  .obj (Entries.insertAll [("array_element", element)] shared)

/-- The inputs of a map, one for each element: the element itself if there are
no common parameters. -/
def MapState.inputs (m : MapState) (payload : Json) : Except RunError (List Json) := do
  let elements ← arrayAt payload m.array
  match m.paramPaths with
  | [] => pure elements
  | paths => do
    let shared ← sharedParams payload paths
    pure (elements.map (elementInput shared))

/-! ## Choices -/

/-- The successor that the cases choose, or the default. -/
def chooseCase (payload : Json) (default : Option String) :
    List Case → Except RunError (Option String)
  | [] => .ok default
  | c :: rest =>
    match Path.get payload c.var with
    | .error e => .error (.path e)
    | .ok v =>
      match Comparison.holds? v c.op c.val with
      | none => .error (.incomparable v c.op c.val)
      | some true => .ok (some c.next)
      | some false => chooseCase payload default rest

def SwitchState.choose (s : SwitchState) (payload : Json) : Except RunError (Option String) :=
  chooseCase payload s.default s.cases

/-! ## Transitions -/

/-- Where a state runs: its name, its context, and how workflows inside it are run. -/
structure Site where
  name : String
  requestId : String
  /-- Runs a workflow one level deeper. -/
  enter : Workflow → Json → Process

namespace Site

def fail (site : Site) (payload : Json) (cause : RunError) : Process :=
  .fail (.failedAt site.name payload cause)

def request (site : Site) (activity : String) (payload : Json) : Request :=
  ⟨activity, payload, site.requestId⟩

def dispatch (site : Site) (activity : String) (payload : Json) : Process :=
  .single (site.request activity payload)

/-- Calls an activity so many times, each time with the answer before. -/
def repeatCalls (site : Site) (activity : String) : Nat → Json → Process
  | 0, payload => .value payload
  | n + 1, payload =>
    .call (site.request activity payload) fun
      | .ok v => site.repeatCalls activity n v
      | .error e => site.fail payload (.activity e)

/-- Calls an activity for each element in turn and keeps the payload. -/
def loopCalls (site : Site) (activity : String) (payload : Json) : List Json → Process
  | [] => .value payload
  | element :: rest =>
    .call (site.request activity element) fun
      | .ok _ => site.loopCalls activity payload rest
      | .error e => site.fail payload (.activity e)

end Site

def MapBody.process (site : Site) (body : MapBody) (input : Json) : Process :=
  match body with
  | .activity name => site.dispatch name input
  | .workflow w => site.enter w input

/-- How many elements of a map may be under way: at least one. -/
def MapState.window (m : MapState) (limits : Limits) (elements : Nat) : Nat :=
  max 1 ((m.maxConcurrency.or limits.mapConcurrency).getD elements)

/-- Runs the body for each element and writes the results back. -/
def MapState.transition (site : Site) (limits : Limits) (m : MapState) (payload : Json) : Process :=
  match m.inputs payload with
  | .error e => site.fail payload e
  | .ok inputs =>
    .fork (.window (m.window limits inputs.length)) (inputs.map (m.body.process site)) fun
      | .error e => site.fail payload e
      | .ok results =>
        match Path.set payload (.arr (results.map Outcome.payload)) m.array with
        | .ok p => .value p
        | .error e => site.fail payload (.path e)

/-! ## Parallel states -/

/-- The strands of a branch, and its key. -/
structure BranchPlan where
  key : String
  /-- The branch is a map: its result is a list, unless there is just one element. -/
  isMap : Bool
  strands : List Process

def Branch.plan (site : Site) (b : Branch) (payload : Json) : Except RunError BranchPlan :=
  match b.workflow.rootState? with
  | some (.task t) =>
    let strand := match t.next with
      | some _ => site.enter b.workflow payload
      | none => site.dispatch t.activity payload
    .ok ⟨b.key, false, [strand]⟩
  | some (.map m) =>
    match m.body with
    | .workflow _ => .error (.unsupportedBranch b.workflow.root .map)
    | .activity name => do
      let inputs ← m.inputs payload
      let strand (input : Json) : Process := match b.elementWorkflow with
        | some w => site.enter w input
        | none => site.dispatch name input
      pure ⟨b.key, true, inputs.map strand⟩
  | some s => .error (.unsupportedBranch b.workflow.root s.kind)
  | none => .error (.unknownState b.workflow.root)

def branchPlans (site : Site) (payload : Json) : List Branch → Except RunError (List BranchPlan)
  | [] => .ok []
  | b :: rest => do
    let plan ← b.plan site payload
    pure (plan :: (← branchPlans site payload rest))

/-- The result of a branch: a list has just one element bare. -/
def BranchPlan.result (plan : BranchPlan) (results : List Json) : Json :=
  match plan.isMap, results with
  | false, r :: _ => r
  | false, [] => .null
  | true, [r] => r
  | true, rs => .arr rs

/-- The results of the strands under the keys of their branches. -/
def mergeBranches (merged : Entries Json) : List BranchPlan → List Json → Entries Json
  | [], _ => merged
  | plan :: rest, results =>
    let n := plan.strands.length
    mergeBranches (merged.insert plan.key (plan.result (results.take n))) rest (results.drop n)

/-- Up to this many strands of a parallel state are watched for the first failure in time. -/
def watchedStrands : Nat := 30

/-- How the strands of a parallel state run: more of them than can be watched deliver in order. -/
def parallelWidth (strands : Nat) : Width :=
  if strands ≤ watchedStrands then .all else .window strands

def ParallelState.transition (site : Site) (p : ParallelState) (payload : Json) : Process :=
  match branchPlans site payload p.branches with
  | .error e => site.fail payload e
  | .ok plans =>
    let strands := plans.flatMap BranchPlan.strands
    .fork (parallelWidth strands.length) strands fun
      | .error e => site.fail payload e
      | .ok results => .value (.obj (mergeBranches [] plans (results.map Outcome.payload)))

/-- What a state does with a payload. A switch does nothing with it. -/
def State.transition (site : Site) (limits : Limits) (s : State) (payload : Json) : Process :=
  match s with
  | .task t => site.repeatCalls t.activity 1 payload
  | .switch _ => .value payload
  | .map m => m.transition site limits payload
  | .repeat r => site.repeatCalls r.activity r.count payload
  | .loop l =>
    match arrayAt payload l.array with
    | .error e => site.fail payload e
    | .ok elements => site.loopCalls l.activity payload elements
  | .parallel p => p.transition site payload

/-- Where a state goes on to, given the payload before it. -/
def State.successor (s : State) (payload : Json) : Except RunError (Option String) :=
  match s with
  | .switch sw => sw.choose payload
  | s => .ok s.next?

/-! ## Walks -/

/-- Runs a workflow from a state on, for at most so many states in a row; `visited` are the states
before, the latest first. -/
def Workflow.walk (limits : Limits) :
    Nat → Context → Workflow → String → Json → List String → Process
  | 0, _, _, _, _, _ => .exhausted
  | fuel + 1, ctx, w, name, payload, visited =>
    match w.state? name with
    | none => .fail (.failedAt name payload (.unknownState name))
    | some s =>
      let enter (inner : Workflow) (input : Json) : Process :=
        match ctx.nested? limits.maxDepth with
        | none => .fail (.depthExceeded limits.maxDepth)
        | some child => walk limits fuel child inner inner.root input []
      let site : Site := ⟨name, ctx.requestId, enter⟩
      match s.successor payload with
      | .error e => site.fail payload e
      | .ok next =>
        (s.transition site limits payload).andThen fun o =>
          match next with
          | none => .done (.ok ⟨o.payload, (name :: visited).reverse⟩)
          | some next => walk limits fuel ctx w next o.payload (name :: visited)

def Workflow.process (limits : Limits) (fuel : Nat) (requestId : String) (w : Workflow)
    (payload : Json) : Process :=
  w.walk limits fuel (.top requestId) w.root payload []

end Orchestration
