import Orchestration.Definition.Term
import Orchestration.Workflow.Basic

/-!
# The records of a definition

For each record of a definition its name and fields, the fields read so far, and what they make when
all are read. Fields are read in the order in which they are written; what is missing is found last.
States that hold no workflow are read here as a whole.
-/

namespace Orchestration.Definition

open Record (once)

/-! ## Tasks -/

def taskRecord : Record := ⟨"Task", ["func_name", "next"]⟩

/-- The fields of a task read so far. -/
structure TaskFields where
  activity : Option String
  next : Option (Option String)

namespace TaskFields

def put (acc : TaskFields) (field : String) (t : Term) : Except Mismatch TaskFields :=
  match field with
  | "func_name" => do pure { acc with activity := ← once field acc.activity t.text }
  | _ => do pure { acc with next := ← once field acc.next (t.optional Term.text) }

def finish (acc : TaskFields) (layout : Layout) : Except Mismatch TaskState := do
  let activity ← taskRecord.required layout "func_name" acc.activity
  pure ⟨activity, acc.next.join⟩

end TaskFields

/-! ## Repeats -/

def repeatRecord : Record := ⟨"Repeat", ["func_name", "count", "next"]⟩

/-- The fields of a repeat read so far. -/
structure RepeatFields where
  activity : Option String
  count : Option Nat
  next : Option (Option String)

namespace RepeatFields

def put (acc : RepeatFields) (field : String) (t : Term) : Except Mismatch RepeatFields :=
  match field with
  | "func_name" => do pure { acc with activity := ← once field acc.activity t.text }
  | "count" => do pure { acc with count := ← once field acc.count t.count }
  | _ => do pure { acc with next := ← once field acc.next (t.optional Term.text) }

def finish (acc : RepeatFields) (layout : Layout) : Except Mismatch RepeatState := do
  let activity ← repeatRecord.required layout "func_name" acc.activity
  let count ← repeatRecord.required layout "count" acc.count
  pure ⟨activity, count, acc.next.join⟩

end RepeatFields

/-! ## Loops -/

def loopRecord : Record := ⟨"Loop", ["func_name", "array", "next"]⟩

/-- The fields of a loop read so far. -/
structure LoopFields where
  activity : Option String
  array : Option String
  next : Option (Option String)

namespace LoopFields

def put (acc : LoopFields) (field : String) (t : Term) : Except Mismatch LoopFields :=
  match field with
  | "func_name" => do pure { acc with activity := ← once field acc.activity t.text }
  | "array" => do pure { acc with array := ← once field acc.array t.text }
  | _ => do pure { acc with next := ← once field acc.next (t.optional Term.text) }

def finish (acc : LoopFields) (layout : Layout) : Except Mismatch LoopState := do
  let activity ← loopRecord.required layout "func_name" acc.activity
  let array ← loopRecord.required layout "array" acc.array
  pure ⟨activity, array, acc.next.join⟩

end LoopFields

/-! ## Switches -/

def operatorSymbols : List String := Comparison.all.map Comparison.symbol

/-- The operator at a position of the list of all. -/
def operatorAt (i : Nat) : Comparison := Comparison.all.getD i .equals

/-- What may stand under the symbol of an operator: nothing. -/
def checkNothing : Term → Except Mismatch Unit
  | .null | .map [] => .ok ()
  | t => t.mismatch .nothing

/-- An operator: its symbol, or a map with the symbol over nothing. -/
def operator : Term → Except Mismatch Comparison
  | .str s => operatorAt <$> (Term.str s).variant operatorSymbols
  | .map [(k, t)] => do
    let i ← k.variant operatorSymbols
    checkNothing t
    pure (operatorAt i)
  | .map _ => .error (.wrongValue .map .singleField)
  | t => t.mismatch .operator

def caseRecord : Record := ⟨"Case", ["var", "op", "val", "next"]⟩

/-- The fields of a case read so far. -/
structure CaseFields where
  var : Option String
  op : Option Comparison
  val : Option Json
  next : Option String

namespace CaseFields

def put (acc : CaseFields) (field : String) (t : Term) : Except Mismatch CaseFields :=
  match field with
  | "var" => do pure { acc with var := ← once field acc.var t.text }
  | "op" => do pure { acc with op := ← once field acc.op (operator t) }
  | "val" => do pure { acc with val := ← once field acc.val t.json }
  | _ => do pure { acc with next := ← once field acc.next t.text }

def finish (acc : CaseFields) (layout : Layout) : Except Mismatch Case := do
  let var ← caseRecord.required layout "var" acc.var
  let op ← caseRecord.required layout "op" acc.op
  let val ← caseRecord.required layout "val" acc.val
  let next ← caseRecord.required layout "next" acc.next
  pure ⟨var, op, val, next⟩

end CaseFields

def case : Term → Except Mismatch Case
  | .map entries => do
    (← caseRecord.readEntries CaseFields.put ⟨none, none, none, none⟩ entries).finish .named
  | .seq items => do
    let acc ← Record.readItems CaseFields.put ⟨none, none, none, none⟩ caseRecord.fields items
    let c ← acc.finish .listed
    caseRecord.checkLength items
    pure c
  | t => t.mismatch (.record caseRecord.name)

def cases : Term → Except Mismatch (List Case)
  | .seq items => items.mapM case
  | t => t.mismatch .sequence

def switchRecord : Record := ⟨"Switch", ["cases", "default"]⟩

/-- The fields of a switch read so far. -/
structure SwitchFields where
  cases : Option (List Case)
  default : Option (Option String)

namespace SwitchFields

def put (acc : SwitchFields) (field : String) (t : Term) : Except Mismatch SwitchFields :=
  match field with
  | "cases" => do pure { acc with cases := ← once field acc.cases (Definition.cases t) }
  | _ => do pure { acc with default := ← once field acc.default (t.optional Term.text) }

def finish (acc : SwitchFields) (layout : Layout) : Except Mismatch SwitchState := do
  let cases ← switchRecord.required layout "cases" acc.cases
  pure ⟨cases, acc.default.join⟩

end SwitchFields

/-! ## Maps -/

def mapRecord : Record :=
  ⟨"RawMap", ["func_name", "body", "array", "common_params", "max_concurrency", "next"]⟩

/-- The fields of a map read so far. -/
structure MapFields where
  activity : Option (Option String)
  body : Option (Option Workflow)
  array : Option String
  commonParams : Option (Option String)
  maxConcurrency : Option (Option Nat)
  next : Option (Option String)

namespace MapFields

def none : MapFields := ⟨.none, .none, .none, .none, .none, .none⟩

/-- Reads one field of a map; `body` is the term read as a workflow. -/
def put (acc : MapFields) (field : String) (t : Term)
    (body : Unit → Except Mismatch (Option Workflow)) : Except Mismatch MapFields :=
  match field with
  | "func_name" => do pure { acc with activity := ← once field acc.activity (t.optional Term.text) }
  | "body" => do pure { acc with body := ← once field acc.body (body ()) }
  | "array" => do pure { acc with array := ← once field acc.array t.text }
  | "common_params" => do
    pure { acc with commonParams := ← once field acc.commonParams (t.optional Term.text) }
  | "max_concurrency" => do
    pure { acc with maxConcurrency := ← once field acc.maxConcurrency (t.optional Term.count) }
  | _ => do pure { acc with next := ← once field acc.next (t.optional Term.text) }

def mapBody (acc : MapFields) : Except Mismatch MapBody :=
  match acc.activity.join, acc.body.join with
  | some name, .none => .ok (.activity name)
  | .none, some w => .ok (.workflow w)
  | some _, some _ => .error .twoBodies
  | .none, .none => .error .noBody

/-- The array of a map, once all of its fields are read. -/
def finishArray (acc : MapFields) (layout : Layout) : Except Mismatch String :=
  mapRecord.required layout "array" acc.array

def finish (acc : MapFields) (array : String) : Except Mismatch MapState := do
  let body ← acc.mapBody
  pure ⟨body, array, acc.commonParams.join, acc.maxConcurrency.join, acc.next.join⟩

end MapFields

/-! ## Workflows, branches and parallel states -/

def workflowRecord : Record := ⟨"Workflow", ["root", "states"]⟩

/-- The fields of a workflow read so far. -/
structure WorkflowFields where
  root : Option String
  states : Option (Entries State)

namespace WorkflowFields

/-- Reads one field of a workflow; `states` is the term read as states. -/
def put (acc : WorkflowFields) (field : String) (t : Term)
    (states : Unit → Except Mismatch (Entries State)) : Except Mismatch WorkflowFields :=
  match field with
  | "root" => do pure { acc with root := ← once field acc.root t.text }
  | _ => do pure { acc with states := ← once field acc.states (states ()) }

def finish (acc : WorkflowFields) (layout : Layout) : Except Mismatch Workflow := do
  let root ← workflowRecord.required layout "root" acc.root
  let states ← workflowRecord.required layout "states" acc.states
  pure ⟨root, states⟩

end WorkflowFields

def parallelRecord : Record := ⟨"Parallel", ["funcs", "next"]⟩

/-- The fields of a parallel state read so far. -/
structure ParallelFields where
  branches : Option (List Branch)
  next : Option (Option String)

namespace ParallelFields

/-- Reads one field of a parallel state; `branches` is the term read as branches. -/
def put (acc : ParallelFields) (field : String) (t : Term)
    (branches : Unit → Except Mismatch (List Branch)) : Except Mismatch ParallelFields :=
  match field with
  | "funcs" => do pure { acc with branches := ← once field acc.branches (branches ()) }
  | _ => do pure { acc with next := ← once field acc.next (t.optional Term.text) }

def finish (acc : ParallelFields) (layout : Layout) : Except Mismatch ParallelState := do
  let branches ← parallelRecord.required layout "funcs" acc.branches
  pure ⟨branches, acc.next.join⟩

end ParallelFields

end Orchestration.Definition
