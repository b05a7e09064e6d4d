import Orchestration.Definition.Fields

/-!
# States from terms

`Definition.state` reads a term as a state, `Definition.workflow` as a workflow. The kind of a state
stands in its field `type`, wherever that is among the fields, or first in a list. The states of a
workflow are a map; a name that is repeated keeps its first place and its last state.

The name and the states of a branch stand side by side. They are read in two passes, the name first.
-/

namespace Orchestration.Definition

def kindNames : List String := Kind.all.map Kind.name

/-- The kind at a position of the list of all. -/
def kindAt (i : Nat) : Kind := Kind.all.getD i .task

/-- A term that names the kind of a state. -/
def kind (t : Term) : Except Mismatch Kind := kindAt <$> t.variant kindNames

/-- The field that holds the kind of a state. -/
def kindField : String := "type"

/-- Whether a key is the one of the kind. -/
def isKindField : Term → Bool
  | .str s => s == kindField
  | _ => false

def kindOfEntries : Option Kind → List (Term × Term) → Except Mismatch Kind
  | some k, [] => .ok k
  | none, [] => .error (.missing kindField)
  | found, (k, t) :: rest =>
    if isKindField k then
      if found.isSome then .error (.duplicate kindField)
      else do kindOfEntries (some (← kind t)) rest
    else kindOfEntries found rest

/-- Whether a key is the one of a branch's name. -/
def isNameField : Term → Except Mismatch Bool
  | .str s => .ok (s == "name")
  | .int n => if 0 ≤ n then .ok false else .error (.wrongType (.int n) .field)
  | t => t.mismatch .field

/-- The name of a branch, if one is written. Its other fields are left for later. -/
def branchName : Option (Option String) → List (Term × Term) → Except Mismatch (Option String)
  | found, [] => .ok found.join
  | found, (k, t) :: rest => do
    if ← isNameField k then
      branchName (← Record.once "name" found (t.optional Term.text)) rest
    else branchName found rest

/-- A state without workflows, of a kind that has none, from its entries. -/
def plainEntries : Kind → List (Term × Term) → Except Mismatch State
  | .switch, entries => do
    let acc ← switchRecord.readEntries SwitchFields.put ⟨none, none⟩ entries
    .switch <$> acc.finish .named
  | .repeat, entries => do
    let acc ← repeatRecord.readEntries RepeatFields.put ⟨none, none, none⟩ entries
    .repeat <$> acc.finish .named
  | .loop, entries => do
    let acc ← loopRecord.readEntries LoopFields.put ⟨none, none, none⟩ entries
    .loop <$> acc.finish .named
  | _, entries => do
    let acc ← taskRecord.readEntries TaskFields.put ⟨none, none⟩ entries
    .task <$> acc.finish .named

/-- A state without workflows, of a kind that has none, from its listed fields. -/
def plainItems : Kind → List Term → Except Mismatch State
  | .switch, items => do
    let acc ← Record.readItems SwitchFields.put ⟨none, none⟩ switchRecord.fields items
    let s ← acc.finish .listed
    switchRecord.checkLength items
    pure (.switch s)
  | .repeat, items => do
    let acc ← Record.readItems RepeatFields.put ⟨none, none, none⟩ repeatRecord.fields items
    let s ← acc.finish .listed
    repeatRecord.checkLength items
    pure (.repeat s)
  | .loop, items => do
    let acc ← Record.readItems LoopFields.put ⟨none, none, none⟩ loopRecord.fields items
    let s ← acc.finish .listed
    loopRecord.checkLength items
    pure (.loop s)
  | _, items => do
    let acc ← Record.readItems TaskFields.put ⟨none, none⟩ taskRecord.fields items
    let s ← acc.finish .listed
    taskRecord.checkLength items
    pure (.task s)

/-- A map whose fields were read from its entries. -/
def mapOfEntries (acc : MapFields) : Except Mismatch State := do
  let array ← acc.finishArray .named
  .map <$> acc.finish array

/-- A map whose fields were read from a list; its length is wrong before its body is. -/
def mapOfItems (acc : MapFields) (items : List Term) : Except Mismatch State := do
  let array ← acc.finishArray .listed
  mapRecord.checkLength items
  .map <$> acc.finish array

/-- A parallel state whose fields were read from a list. -/
def parallelOfItems (acc : ParallelFields) (items : List Term) : Except Mismatch State := do
  let s ← acc.finish .listed
  parallelRecord.checkLength items
  pure (.parallel s)

/-- A workflow whose fields were read from a list. -/
def workflowOfItems (acc : WorkflowFields) (items : List Term) : Except Mismatch Workflow := do
  let w ← acc.finish .listed
  workflowRecord.checkLength items
  pure w

mutual

/-- A state from a term; the entry of its kind is no field of it. -/
def state : Term → Except Mismatch State
  | .map entries => do
    match ← kindOfEntries none entries with
    | .map => mapOfEntries (← mapEntries .none entries)
    | .parallel => do
      let acc ← parallelEntries ⟨none, none⟩ entries
      .parallel <$> acc.finish .named
    | k => plainEntries k entries
  | .seq (t :: items) => do
    match ← kind t with
    | .map => mapOfItems (← mapItems .none mapRecord.fields items) items
    | .parallel => parallelOfItems (← parallelItems ⟨none, none⟩ parallelRecord.fields items) items
    | k => plainItems k items
  | .seq [] => .error (.missing kindField)
  | t => t.mismatch .state

def mapEntries (acc : MapFields) : List (Term × Term) → Except Mismatch MapFields
  | [] => .ok acc
  | (k, t) :: rest => do
    match ← k.field mapRecord.fields with
    | some field => mapEntries (← acc.put field t fun _ => body t) rest
    | none => mapEntries acc rest

def mapItems (acc : MapFields) (fields : List String) : List Term → Except Mismatch MapFields
  | [] => .ok acc
  | t :: rest =>
    match fields with
    | [] => .ok acc
    | field :: fields => do mapItems (← acc.put field t fun _ => body t) fields rest

/-- The workflow of a map, if one is written. -/
def body : Term → Except Mismatch (Option Workflow)
  | .null => .ok none
  | .map entries => do
    let acc ← workflowEntries ⟨none, none⟩ entries
    some <$> acc.finish .named
  | .seq items => do
    let acc ← workflowItems ⟨none, none⟩ workflowRecord.fields items
    some <$> workflowOfItems acc items
  | t => t.mismatch (.record workflowRecord.name)

def workflowEntries (acc : WorkflowFields) : List (Term × Term) → Except Mismatch WorkflowFields
  | [] => .ok acc
  | (k, t) :: rest => do
    match ← k.field workflowRecord.fields with
    | some field => workflowEntries (← acc.put field t fun _ => states t) rest
    | none => workflowEntries acc rest

def workflowItems (acc : WorkflowFields) (fields : List String) :
    List Term → Except Mismatch WorkflowFields
  | [] => .ok acc
  | t :: rest =>
    match fields with
    | [] => .ok acc
    | field :: fields => do workflowItems (← acc.put field t fun _ => states t) fields rest

def states : Term → Except Mismatch (Entries State)
  | .map entries => stateMap [] entries
  | t => t.mismatch .map

def stateMap (acc : Entries State) : List (Term × Term) → Except Mismatch (Entries State)
  | [] => .ok acc
  | (k, t) :: rest => do
    let name ← k.text
    stateMap (acc.insert name (← state t)) rest

/-- The fields of a parallel state among its entries. -/
def parallelEntries (acc : ParallelFields) : List (Term × Term) → Except Mismatch ParallelFields
  | [] => .ok acc
  | (k, t) :: rest => do
    match ← k.field parallelRecord.fields with
    | some field => parallelEntries (← acc.put field t fun _ => branches t) rest
    | none => parallelEntries acc rest

def parallelItems (acc : ParallelFields) (fields : List String) :
    List Term → Except Mismatch ParallelFields
  | [] => .ok acc
  | t :: rest =>
    match fields with
    | [] => .ok acc
    | field :: fields => do parallelItems (← acc.put field t fun _ => branches t) fields rest

def branches : Term → Except Mismatch (List Branch)
  | .seq items => branchList items
  | t => t.mismatch .sequence

def branchList : List Term → Except Mismatch (List Branch)
  | [] => .ok []
  | t :: rest => do
    let b ← branch t
    pure (b :: (← branchList rest))

/-- A branch; it cannot be listed. -/
def branch : Term → Except Mismatch Branch
  | .map entries => do
    let name ← branchName none entries
    let acc ← branchEntries ⟨none, none⟩ entries
    pure ⟨name, ← acc.finish .named⟩
  | t => t.mismatch (.record "Branch")

/-- The workflow's fields among the entries of a branch; only names name them. -/
def branchEntries (acc : WorkflowFields) : List (Term × Term) → Except Mismatch WorkflowFields
  | [] => .ok acc
  | (.str s, t) :: rest =>
    if workflowRecord.fields.contains s then do
      branchEntries (← acc.put s t fun _ => states t) rest
    else branchEntries acc rest
  | _ :: rest => branchEntries acc rest

end

end Orchestration.Definition
