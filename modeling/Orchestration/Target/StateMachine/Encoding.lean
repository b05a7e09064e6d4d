import Orchestration.Target.Fragment
import Orchestration.Target.StateMachine.Basic

/-!
# Workflows as state machines

`Workflow.machine` encodes a workflow as a state machine that has a state of the same name for each
state of the workflow.

* A switch without a default goes on to a state that ends the machine.
* A repeat becomes a chain of tasks, a loop a map whose results are dropped.
* A branch that starts with a map becomes a machine that runs the rest of the branch for each
  element and then gives a single result bare and any other number of them as a list.
-/

namespace Orchestration

namespace StateMachine

def target : Target := .stepFunctions

/-! ## States without workflows -/

def taskState (resolver : Resolver) (t : TaskState) : Except CompileError MachineState := do
  pure (.task (← addressOf resolver t.activity) t.next)

def taskFragments (resolver : Resolver) (name : String) (t : TaskState) :
    Except CompileError (List (String × MachineState)) := do
  pure [(name, ← taskState resolver t)]

def singleTask (resolver : Resolver) (activity : String) : Except CompileError Machine := do
  pure ⟨activity, [(activity, ← taskState resolver ⟨activity, none⟩)]⟩

def comparator? (op : Comparison) : Json → Option String
  | .int _ | .float _ => some ("Numeric" ++ op.name)
  | .str _ => some ("String" ++ op.name)
  | .bool _ => if op = .equals then some "BooleanEquals" else none
  | _ => none

def rule? (c : Case) : Option Rule :=
  match c.val, c.op with
  | .null, .equals => some (.isNull (.path c.var))
  | val, op => (comparator? op val).map fun comparator => .compare (.path c.var) comparator val

def choices (name : String) : List Case → Except CompileError (List Choice)
  | [] => .ok []
  | c :: rest =>
    match rule? c with
    | some rule => do pure (⟨rule, c.next⟩ :: (← choices name rest))
    | none => .error (.invalid target name (.noComparator c.op c.val))

/-- The name of the state that ends the machine when no case of a switch holds. -/
def noMatchName (name : String) : String := name ++ "_no_match"

def switchFragments (name : String) (s : SwitchState) :
    Except CompileError (List (String × MachineState)) := do
  let cs ← choices name s.cases
  match s.default with
  | some default => pure [(name, .choice cs default)]
  | none => pure [(name, .choice cs (noMatchName name)), (noMatchName name, .succeed)]

def chainFragments (resolver : Resolver) :
    List (String × TaskState) → Except CompileError (List (String × MachineState))
  | [] => .ok []
  | (name, t) :: rest => do
    let fs ← taskFragments resolver name t
    pure (fs ++ (← chainFragments resolver rest))

/-- The fragment of a loop: a map that goes one by one and drops its results. -/
def loopFragments (resolver : Resolver) (name : String) (l : LoopState) :
    Except CompileError (List (String × MachineState)) := do
  let iterator ← singleTask resolver l.activity
  pure [(name, .map (.path l.array) [] iterator (some 1) .dropped l.next)]

/-- The parameters of a map: the element, and the common parameters under their paths. -/
def parameters (m : MapState) : List (String × ParameterSource) :=
  match m.paramPaths with
  | [] => []
  | paths =>
    Entries.insertAll [("array_element", .element)]
      (paths.map fun p => (p, ParameterSource.place (.path p)))

def mapState (m : MapState) (iterator : Machine) (result : ResultPlace) (next : Option String) :
    MachineState :=
  .map (.path m.array) (parameters m) iterator m.maxConcurrency result next

/-- The machine of a branch that starts with a map. -/
def mapBranch (root : String) (m : MapState) (iterator : Machine) : Machine :=
  let shape := root ++ "_shape"
  let single := root ++ "_single"
  let list := root ++ "_list"
  ⟨root, [(root, mapState m iterator .output (some shape)),
    (shape, .choice [⟨.oneItem, single⟩] list), (single, .pass (.item 0)), (list, .succeed)]⟩

/-- The items of the results of a parallel state, counted from `i`, under the
keys of the branches. -/
def selector (acc : Entries Reference) (i : Nat) : List Branch → Entries Reference
  | [] => acc
  | b :: rest => selector (acc.insert b.key (.item i)) (i + 1) rest

/-! ## States with workflows -/

mutual

/-- The fragments of the states of a workflow; a state may be replaced by a task. -/
def statesFragments (resolver : Resolver) (replacement : Replacement) (taken : List String) :
    List (String × State) → Except CompileError (List (String × MachineState))
  | [] => .ok []
  | (name, s) :: rest => do
    let fs ← match replacementOf replacement name with
      | some t => taskFragments resolver name t
      | none => fragments resolver name s
    let taken ← claimNames target name taken (fs.map Prod.fst)
    pure (fs ++ (← statesFragments resolver replacement taken rest))

def fragments (resolver : Resolver) (name : String) :
    State → Except CompileError (List (String × MachineState))
  | .task t => taskFragments resolver name t
  | .switch s => switchFragments name s
  | .repeat r => chainFragments resolver (r.unrolled name)
  | .loop l => loopFragments resolver name l
  | .map ⟨body, array, commonParams, maxConcurrency, next⟩ => do
    let iterator ← bodyMachine resolver body
    let m : MapState := ⟨body, array, commonParams, maxConcurrency, next⟩
    pure [(name, mapState m iterator (.place (.path array)) next)]
  | .parallel ⟨branches, next⟩ => do
    let machines ← branchMachines resolver name branches
    pure [(name, .parallel machines (selector [] 0 branches) next)]

/-- The machine that a map runs for each element. -/
def bodyMachine (resolver : Resolver) : MapBody → Except CompileError Machine
  | .activity name => singleTask resolver name
  | .workflow ⟨root, states⟩ => do pure ⟨root, ← statesFragments resolver none [] states⟩

def branchMachines (resolver : Resolver) (name : String) :
    List Branch → Except CompileError (List Machine)
  | [] => .ok []
  | b :: rest => do
    let m ← branchMachine resolver name b
    pure (m :: (← branchMachines resolver name rest))

/-- The machine of a branch of the parallel state of the given name. -/
def branchMachine (resolver : Resolver) (name : String) : Branch → Except CompileError Machine
  | ⟨bname, ⟨root, states⟩⟩ =>
    match Entries.get? root states with
    | some (.task _) => do pure ⟨root, ← statesFragments resolver none [] states⟩
    | some (.map m) =>
      match m.body with
      | .workflow _ => .error (.unsupported target .map name)
      | .activity activity => do
        let iterator ← match Branch.elementTask? ⟨bname, ⟨root, states⟩⟩ with
          | some t => do
            let fs ← statesFragments resolver (some (root, t)) [] states
            pure ⟨root, fs⟩
          | none => singleTask resolver activity
        pure (mapBranch root m iterator)
    | some s => .error (.unsupported target s.kind name)
    | none => .error (.invalid target name (.undeclaredRoot root))

end

/-! ## Documents -/

def encodeState (resolver : Resolver) (name : String) (s : State) :
    Except CompileError (List Fragment) := do
  pure (machineStatesToJson (← fragments resolver name s))

/-- The document that has the fragments as its states. -/
def assemble (w : Workflow) (fs : List Fragment) : Json :=
  .obj [("StartAt", .str w.root), ("States", .obj (Entries.ofWrites fs))]

end StateMachine

namespace Workflow

def machine (resolver : Resolver) (w : Workflow) : Except CompileError Machine := do
  pure ⟨w.root, ← StateMachine.statesFragments resolver none [] w.states⟩

end Workflow

end Orchestration
