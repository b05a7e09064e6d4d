import Orchestration.Json.Basic
import Orchestration.Workflow.Basic

/-!
# State machines

A document of the states language: a state to start at and states by name. The states of a machine
say by references where in their data they read and write.

* `Machine.toJson` is the JSON value of a machine.
* `MachineState.transition?` is where a state goes on to, if it does not end the machine.
-/

namespace Orchestration

/-- A place in the data of a state. -/
inductive Reference where
  /-- The value at a dotted path. -/
  | path (p : String)
  /-- An item of an array. -/
  | item (i : Nat)
deriving DecidableEq

def Reference.text : Reference → String
  | .path p => "$." ++ p
  | .item i => s!"$[{i}]"

/-- A test of a choice. -/
inductive Rule where
  | isNull (subject : Reference)
  /-- The value compares to a constant of the kind that the comparator is for. -/
  | compare (subject : Reference) (comparator : String) (val : Json)
  /-- The first item is there and the second is not. -/
  | oneItem

/-- A test and where to go if it holds. -/
structure Choice where
  rule : Rule
  next : String

/-- The source of a parameter of a map: the element itself, or a place in the data. -/
inductive ParameterSource where
  | element
  | place (r : Reference)
deriving DecidableEq

def ParameterSource.text : ParameterSource → String
  | .element => "$$.Map.Item.Value"
  | .place r => r.text

/-- Where the results of a map go. -/
inductive ResultPlace where
  /-- They are the output. -/
  | output
  /-- They are written into the data. -/
  | place (r : Reference)
  /-- They are dropped, and the data is the output. -/
  | dropped
deriving DecidableEq

mutual

/-- A state of a machine. -/
inductive MachineState where
  | task (resource : String) (next : Option String)
  | choice (choices : List Choice) (default : String)
  /-- Runs a machine for each item; without parameters the item is its input. -/
  | map (items : Reference) (parameters : List (String × ParameterSource)) (iterator : Machine)
      (maxConcurrency : Option Nat) (result : ResultPlace) (next : Option String)
  /-- Runs machines on the same input and selects an item of their results for each key. -/
  | parallel (branches : List Machine) (selector : List (String × Reference)) (next : Option String)
  /-- Ends with one item of its input. -/
  | pass (input : Reference)
  | succeed

/-- A state to start at and states by name. -/
structure Machine where
  startAt : String
  states : List (String × MachineState)

end

/-! ## JSON values -/

/-- The last field of a state: where it goes on to, or that it ends the machine. -/
def transitionField : Option String → String × Json
  | some next => ("Next", .str next)
  | none => ("End", .bool true)

def Rule.fields : Rule → List (String × Json)
  | .isNull v => [("Variable", .str v.text), ("IsNull", .bool true)]
  | .compare v comparator val => [("Variable", .str v.text), (comparator, val)]
  | .oneItem =>
    [("And", .arr [
      .obj [("Variable", .str (Reference.item 0).text), ("IsPresent", .bool true)],
      .obj [("Variable", .str (Reference.item 1).text), ("IsPresent", .bool false)]])]

def Choice.toJson (c : Choice) : Json := .obj (c.rule.fields ++ [("Next", .str c.next)])

/-- The fields that say what the input of an iteration is. -/
def parameterFields : List (String × ParameterSource) → List (String × Json)
  | [] => []
  | ps => [("Parameters", .obj (ps.map fun (k, s) => (k ++ ".$", .str s.text)))]

/-- The field that says where the results of a map go. -/
def ResultPlace.fields : ResultPlace → List (String × Json)
  | .output => []
  | .place r => [("ResultPath", .str r.text)]
  | .dropped => [("ResultPath", .null)]

/-- The field that limits how many items are under way. -/
def concurrencyFields : Option Nat → List (String × Json)
  | some n => [("MaxConcurrency", .int n)]
  | none => []

mutual

def MachineState.toJson : MachineState → Json
  | .task resource next =>
    .obj [("Type", .str "Task"), ("Resource", .str resource), transitionField next]
  | .choice choices default =>
    .obj [("Type", .str "Choice"), ("Choices", .arr (choices.map Choice.toJson)),
      ("Default", .str default)]
  | .map items parameters iterator maxConcurrency result next =>
    .obj ([("Type", .str "Map"), ("ItemsPath", .str items.text)] ++ parameterFields parameters ++
      [("Iterator", iterator.toJson)] ++ concurrencyFields maxConcurrency ++ result.fields ++
      [transitionField next])
  | .parallel branches selector next =>
    .obj [("Type", .str "Parallel"), ("Branches", .arr (machinesToJson branches)),
      ("ResultSelector", .obj (selector.map fun (k, r) => (k ++ ".$", .str r.text))),
      transitionField next]
  | .pass input =>
    .obj [("Type", .str "Pass"), ("InputPath", .str input.text), transitionField none]
  | .succeed => .obj [("Type", .str "Succeed")]

def machinesToJson : List Machine → List Json
  | [] => []
  | m :: rest => m.toJson :: machinesToJson rest

def machineStatesToJson : List (String × MachineState) → List (String × Json)
  | [] => []
  | (name, s) :: rest => (name, s.toJson) :: machineStatesToJson rest

def Machine.toJson : Machine → Json
  | ⟨startAt, states⟩ =>
    .obj [("StartAt", .str startAt), ("States", .obj (machineStatesToJson states))]

end

end Orchestration
