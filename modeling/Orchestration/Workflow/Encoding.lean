import Orchestration.Json.Printer
import Orchestration.Workflow.Basic

/-!
# Workflows as JSON

`Workflow.toJson` is the JSON value of a workflow, in the form in which definitions are read. A
field without a value is left out, and the kind of a state comes first.
-/

namespace Orchestration

/-- A field that is left out where there is no value. -/
def optionalField (name : String) : Option Json → List (String × Json)
  | some v => [(name, v)]
  | none => []

def nextField (next : Option String) : List (String × Json) := optionalField "next" (next.map .str)

def Case.toJson (c : Case) : Json :=
  .obj [("var", .str c.var), ("op", .str c.op.symbol), ("val", c.val), ("next", .str c.next)]

def TaskState.fields (s : TaskState) : List (String × Json) :=
  ("func_name", .str s.activity) :: nextField s.next

def SwitchState.fields (s : SwitchState) : List (String × Json) :=
  ("cases", .arr (s.cases.map Case.toJson)) :: optionalField "default" (s.default.map .str)

def RepeatState.fields (s : RepeatState) : List (String × Json) :=
  ("func_name", .str s.activity) :: ("count", .int s.count) :: nextField s.next

def LoopState.fields (s : LoopState) : List (String × Json) :=
  ("func_name", .str s.activity) :: ("array", .str s.array) :: nextField s.next

/-- The JSON value of a state of a kind with its fields. -/
def kindedObject (kind : Kind) (fields : List (String × Json)) : Json :=
  .obj (("type", .str kind.name) :: fields)

mutual

def Workflow.toJson : Workflow → Json
  | ⟨root, states⟩ => .obj [("root", .str root), ("states", .obj (statesToJson states))]

def statesToJson : List (String × State) → List (String × Json)
  | [] => []
  | (name, s) :: rest => (name, s.toJson) :: statesToJson rest

def State.toJson : State → Json
  | .task s => kindedObject .task s.fields
  | .switch s => kindedObject .switch s.fields
  | .map s => kindedObject .map s.fields
  | .repeat s => kindedObject .repeat s.fields
  | .loop s => kindedObject .loop s.fields
  | .parallel s => kindedObject .parallel s.fields

/-- The field that holds the body of a map. -/
def MapBody.field : MapBody → String × Json
  | .activity name => ("func_name", .str name)
  | .workflow body => ("body", body.toJson)

def MapState.fields : MapState → List (String × Json)
  | ⟨body, array, commonParams, maxConcurrency, next⟩ =>
    body.field :: ("array", .str array) ::
      (optionalField "common_params" (commonParams.map .str) ++
        optionalField "max_concurrency" (maxConcurrency.map fun n => .int n) ++ nextField next)

def ParallelState.fields : ParallelState → List (String × Json)
  | ⟨branches, next⟩ => ("funcs", .arr (branchesToJson branches)) :: nextField next

def branchesToJson : List Branch → List Json
  | [] => []
  | b :: rest => b.toJson :: branchesToJson rest

/-- The JSON value of a branch: its name beside the fields of its workflow. -/
def Branch.toJson : Branch → Json
  | ⟨name, ⟨root, states⟩⟩ =>
    .obj (optionalField "name" (name.map .str) ++
      [("root", .str root), ("states", .obj (statesToJson states))])

end

/-- The text of a workflow, on indented lines. -/
def Workflow.toText (w : Workflow) : String := w.toJson.pretty

end Orchestration
