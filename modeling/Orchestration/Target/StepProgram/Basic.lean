import Orchestration.Json.Order
import Orchestration.Json.Printer

/-!
# Step programs

A document of the workflow service: named steps that run in order unless one says where
to go on. Steps read and write variables; the texts of expressions stand in the
document between `$` and braces.

`Step.toJson` is the JSON value of a step.
-/

namespace Orchestration

/-- A place that holds a value. -/
inductive Place where
  | var (name : String)
  /-- The value at a dotted path inside a variable. -/
  | field (name path : String)
  /-- The value of a variable under the text of a number. -/
  | keyed (name index : String)
  /-- An item of a variable. -/
  | item (name : String) (i : Nat)
deriving DecidableEq

def Place.text : Place → String
  | .var name => name
  | .field name path => name ++ "." ++ path
  | .keyed name index => s!"{name}[string({index})]"
  | .item name i => s!"{name}[{i}]"

/-- An expression of a step. -/
inductive Expr where
  | read (p : Place)
  /-- A list with one more item. -/
  | append (list : String) (p : Place)
  /-- The position of the last item of a list. -/
  | lastIndex (p : Place)
  /-- Whether a list has just one item. -/
  | isSingle (list : String)
  | compare (p : Place) (op : Comparison) (val : Json)

/-- The text of an expression without its marks. -/
def Expr.body : Expr → String
  | .read p => p.text
  | .append list p => s!"list.concat({list}, {p.text})"
  | .lastIndex p => s!"len({p.text}) - 1"
  | .isSingle list => s!"len({list}) == 1"
  | .compare p op val => p.text ++ " " ++ op.symbol ++ " " ++ val.compact

/-- The text of an expression as it stands in a document. -/
def Expr.text (e : Expr) : String := "$\x7b" ++ e.body ++ "\x7d"

/-- A value with expressions in it. -/
inductive Template where
  | expr (e : Expr)
  | null
  | emptyList
  | emptyObject
  | object (fields : List (String × Template))

namespace Template

def var (name : String) : Template := .expr (.read (.var name))

mutual

def toJson : Template → Json
  | .expr e => .str e.text
  | .null => .null
  | .emptyList => .arr []
  | .emptyObject => .obj []
  | .object fields => .obj (fieldsToJson fields)

def fieldsToJson : List (String × Template) → List (String × Json)
  | [] => []
  | (k, t) :: rest => (k, t.toJson) :: fieldsToJson rest

end

end Template

/-- The condition of a switch and where to go if it holds. -/
structure Condition where
  test : Expr
  next : String

def requestIdVar : String := "request_id"

/-- One step of a program. -/
inductive Step where
  | assign (writes : List (Place × Template)) (next : Option String)
  /-- Calls an activity and stores what comes back. -/
  | post (url : String) (payload : Template) (result : String)
  /-- Runs another document for each item of a list and stores the list of results. -/
  | runMap (workflowId arguments result : String)
  /-- Runs steps for each item of a list in turn. -/
  | forEach (value : String) (items : Place) (steps : List (String × Step))
  /-- Runs steps for each position of a list in turn. -/
  | forPositions (value : String) (list : Place) (steps : List (String × Step))
  /-- Runs steps for the items of a list side by side. -/
  | parallelFor (shared : String) (limit : Option Nat) (value index : String) (items : Place)
      (steps : List (String × Step))
  /-- Runs named lists of steps side by side. -/
  | parallel (shared : List String) (branches : List (String × List (String × Step)))
  | switch (conditions : List Condition) (next : String)
  /-- Runs steps if a condition holds. -/
  | when (condition : Expr) (steps : List (String × Step))
  | goto (next : String)
  | ret (e : Expr)

/-- The steps of a document, in order, under their names. -/
abbrev StepProgram := List (String × Step)

/-! ## JSON values -/

def gotoField : Option String → List (String × Json)
  | some next => [("next", .str next)]
  | none => []

/-- The field that limits how many items are under way. -/
def limitField : Option Nat → List (String × Json)
  | some n => [("concurrency_limit", .int n)]
  | none => []

def Condition.toJson (c : Condition) : Json :=
  .obj [("condition", .str c.test.text), ("next", .str c.next)]

def writeToJson (w : Place × Template) : Json := .single w.1.text w.2.toJson

def postBody (payload : Template) : Json :=
  .obj [(requestIdVar, .str (Expr.read (.var requestIdVar)).text), ("payload", payload.toJson)]

mutual

def Step.toJson : Step → Json
  | .assign writes next => .obj (("assign", .arr (writes.map writeToJson)) :: gotoField next)
  | .post url payload result =>
    .obj [("call", .str "http.post"),
      ("args", .obj [("url", .str url), ("body", postBody payload)]), ("result", .str result)]
  | .runMap workflowId arguments result =>
    .obj [("call", .str "experimental.executions.map"),
      ("args", .obj [("workflow_id", .str workflowId),
        ("arguments", .str (Expr.read (.var arguments)).text)]), ("result", .str result)]
  | .forEach value items steps =>
    .single "for" (.obj [("value", .str value), ("in", .str (Expr.read items).text),
      ("steps", .arr (stepsToJson steps))])
  | .forPositions value list steps =>
    .single "for" (.obj [("value", .str value),
      ("range", .arr [.int 0, .str (Expr.lastIndex list).text]),
      ("steps", .arr (stepsToJson steps))])
  | .parallelFor shared limit value index items steps =>
    .single "parallel" (.obj ([("shared", .arr [.str shared])] ++ limitField limit ++
      [("for", .obj [("value", .str value), ("index", .str index),
        ("in", .str (Expr.read items).text), ("steps", .arr (stepsToJson steps))])]))
  | .parallel shared branches =>
    .single "parallel" (.obj [("shared", .arr (shared.map .str)),
      ("branches", .arr (branchStepsToJson branches))])
  | .switch conditions next =>
    .obj [("switch", .arr (conditions.map Condition.toJson)), ("next", .str next)]
  | .when condition steps =>
    .single "switch" (.arr [.obj [("condition", .str condition.text),
      ("steps", .arr (stepsToJson steps))]])
  | .goto next => .single "next" (.str next)
  | .ret e => .single "return" (.str e.text)

def stepsToJson : List (String × Step) → List Json
  | [] => []
  | (name, s) :: rest => .single name s.toJson :: stepsToJson rest

def branchStepsToJson : List (String × List (String × Step)) → List Json
  | [] => []
  | (name, steps) :: rest =>
    .single name (.single "steps" (.arr (stepsToJson steps))) :: branchStepsToJson rest

end

def StepProgram.fragments (p : StepProgram) : List (String × Json) :=
  p.map fun (name, s) => (name, s.toJson)

end Orchestration
