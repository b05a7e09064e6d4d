import Orchestration.Target.StepProgram.Encoding

/-!
# The calls in the documents of step programs

`Json.mapCalls` lists the ids of the documents that a document runs for each item of a list, at
every depth. They are the ids that its steps call (`StepProgram.mapCalls_toJson`).
-/

namespace Orchestration

/-! ## The calls of a document -/

namespace Json

/-- The name of the call that runs a document for each item of a list. -/
def mapCallName : String := "experimental.executions.map"

/-- The id of the document that a value runs for each item of a list, if it
is such a call itself. -/
def ownCall (v : Json) : List Json :=
  if (v.field? "call").bind text? = some mapCallName then
    [(v.fieldOrNull "args").fieldOrNull "workflow_id"]
  else []

mutual

/-- The ids of the documents that a value runs for each item of a list, at every depth. -/
@[simp] def mapCalls : Json → List Json
  | .null | .bool _ | .int _ | .float _ | .str _ => []
  | .arr items => itemCalls items
  | .obj fields => ownCall (.obj fields) ++ fieldCalls fields

/-- `mapCalls` of items. -/
@[simp] def itemCalls : List Json → List Json
  | [] => []
  | v :: rest => v.mapCalls ++ itemCalls rest

/-- `mapCalls` of the values of fields. -/
@[simp] def fieldCalls : List (String × Json) → List Json
  | [] => []
  | (_, v) :: rest => v.mapCalls ++ fieldCalls rest

end

theorem ownCall_of_ne {v : Json} (h : (v.field? "call").bind text? ≠ some mapCallName) :
    v.ownCall = [] := if_neg h

/-- An object with one field that is not the name of the call calls what its field calls. -/
theorem mapCalls_single {v : Json} (name : String) (h : v.text? ≠ some mapCallName) :
    (single name v).mapCalls = v.mapCalls := by
  have hOwn : ownCall (.obj [(name, v)]) = [] := by
    apply ownCall_of_ne
    by_cases hName : name = "call"
    · simpa [field?, Entries.get?, hName] using h
    · simp [field?, Entries.get?, hName]
  rw [single, mapCalls, hOwn, fieldCalls, fieldCalls, List.nil_append, List.append_nil]

theorem itemCalls_append (as bs : List Json) :
    itemCalls (as ++ bs) = itemCalls as ++ itemCalls bs := by
  induction as with
  | nil => rfl
  | cons a as ih => rw [List.cons_append, itemCalls, itemCalls, ih, List.append_assoc]

theorem itemCalls_eq_nil {items : List Json} (h : ∀ v ∈ items, v.mapCalls = []) :
    itemCalls items = [] := by
  induction items with
  | nil => rfl
  | cons v rest ih =>
    rw [itemCalls, h v List.mem_cons_self, List.nil_append]
    exact ih fun u hu => h u (List.mem_cons_of_mem _ hu)

end Json

/-! ## The calls of steps -/

mutual

/-- The ids of the documents that a step runs for each item of a list, at every depth. -/
@[simp] def Step.calls : Step → List String
  | .runMap workflowId _ _ => [workflowId]
  | .forEach _ _ steps | .forPositions _ _ steps | .parallelFor _ _ _ _ _ steps | .when _ steps =>
    stepCalls steps
  | .parallel _ branches => branchCalls branches
  | .assign _ _ | .post _ _ _ | .switch _ _ | .goto _ | .ret _ => []

/-- `Step.calls` of named steps. -/
@[simp] def stepCalls : List (String × Step) → List String
  | [] => []
  | (_, s) :: rest => s.calls ++ stepCalls rest

/-- `Step.calls` of the steps of branches. -/
@[simp] def branchCalls : List (String × List (String × Step)) → List String
  | [] => []
  | (_, steps) :: rest => stepCalls steps ++ branchCalls rest

end

theorem stepCalls_append (p q : StepProgram) : stepCalls (p ++ q) = stepCalls p ++ stepCalls q := by
  induction p with
  | nil => rfl
  | cons s p ih => rw [List.cons_append, stepCalls, stepCalls, ih, List.append_assoc]

/-- The text of an expression starts with a mark, so it is the name of no call. -/
theorem Expr.text_ne_mapCallName (e : Expr) : e.text ≠ Json.mapCallName := by
  intro h
  have hHead := congrArg (fun s => s.toList.head?) h
  simp [Expr.text, Json.mapCallName, String.toList_append] at hHead

theorem Template.text?_toJson_ne (t : Template) : t.toJson.text? ≠ some Json.mapCallName := by
  cases t with
  | expr e =>
    intro h
    rw [Template.toJson, Json.text?, Option.some.injEq] at h
    exact e.text_ne_mapCallName h
  | _ => simp [Template.toJson, Json.text?]

theorem Template.call_fieldsToJson (fields : List (String × Template)) :
    ((Json.obj (Template.fieldsToJson fields)).field? "call").bind Json.text? ≠
      some Json.mapCallName := by
  induction fields with
  | nil => simp [Template.fieldsToJson, Json.field?]
  | cons f rest ih =>
    obtain ⟨name, t⟩ := f
    rw [Template.fieldsToJson, Json.field?, Entries.get?]
    by_cases hName : name = "call"
    · rw [if_pos hName]
      exact t.text?_toJson_ne
    · rw [if_neg hName]
      exact ih

mutual

theorem Template.mapCalls_toJson (t : Template) : t.toJson.mapCalls = [] := by
  cases t with
  | object fields =>
    have hOwn : Json.ownCall (.obj (Template.fieldsToJson fields)) = [] :=
      Json.ownCall_of_ne (Template.call_fieldsToJson fields)
    rw [Template.toJson, Json.mapCalls, hOwn, Template.fieldCalls_fieldsToJson fields]
    rfl
  | _ => rfl

theorem Template.fieldCalls_fieldsToJson (fields : List (String × Template)) :
    Json.fieldCalls (Template.fieldsToJson fields) = [] := by
  cases fields with
  | nil => rfl
  | cons f rest =>
    rw [Template.fieldsToJson, Json.fieldCalls, Template.mapCalls_toJson f.2,
      Template.fieldCalls_fieldsToJson rest]
    rfl

end

/-- The value of a step is an object. -/
theorem Step.text?_toJson (s : Step) : s.toJson.text? = none := by
  cases s <;> rfl

theorem mapCalls_writeToJson (w : Place × Template) : (writeToJson w).mapCalls = [] := by
  rw [writeToJson, Json.mapCalls_single _ w.2.text?_toJson_ne, w.2.mapCalls_toJson]

theorem mapCalls_namedStep (name : String) (s : Step) :
    (Json.single name s.toJson).mapCalls = s.toJson.mapCalls := by
  apply Json.mapCalls_single
  rw [s.text?_toJson]
  simp

mutual

/-- The value of a step calls what the step calls. -/
theorem Step.mapCalls_toJson (s : Step) : s.toJson.mapCalls = s.calls.map .str := by
  cases s with
  | assign writes next =>
    have hWrites : Json.itemCalls (writes.map writeToJson) = [] := by
      apply Json.itemCalls_eq_nil
      intro v hv
      obtain ⟨w, -, rfl⟩ := List.mem_map.mp hv
      exact mapCalls_writeToJson w
    cases next <;>
      simp [Step.toJson, gotoField, Json.ownCall, Json.field?,
        Entries.get?, hWrites]
  | post url payload result =>
    simp [Step.toJson, postBody, Json.ownCall, Json.field?,
      Entries.get?, Json.text?, Json.mapCallName, requestIdVar, payload.mapCalls_toJson]
  | runMap workflowId arguments result =>
    simp [Step.toJson, Json.ownCall, Json.field?,
      Entries.get?, Json.text?, Json.mapCallName, Json.fieldOrNull]
  | forEach value items steps =>
    simp [Step.toJson, Json.ownCall, Json.field?,
      Entries.get?, Json.single, stepCalls_toJson steps]
  | forPositions value list steps =>
    simp [Step.toJson, Json.ownCall, Json.field?,
      Entries.get?, Json.single, stepCalls_toJson steps]
  | parallelFor shared limit value index items steps =>
    cases limit <;>
      simp [Step.toJson, limitField, Json.ownCall,
        Json.field?, Entries.get?, Json.single, stepCalls_toJson steps]
  | parallel shared branches =>
    have hShared : Json.itemCalls (shared.map .str) = [] := by
      apply Json.itemCalls_eq_nil
      intro v hv
      obtain ⟨name, -, rfl⟩ := List.mem_map.mp hv
      rfl
    simp [Step.toJson, Json.ownCall, Json.field?, Entries.get?,
      Json.single, hShared, branchCalls_toJson branches]
  | switch conditions next =>
    have hConditions : Json.itemCalls (conditions.map Condition.toJson) = [] := by
      apply Json.itemCalls_eq_nil
      intro v hv
      obtain ⟨c, -, rfl⟩ := List.mem_map.mp hv
      rfl
    simp [Step.toJson, Json.ownCall, Json.field?, Entries.get?,
      hConditions]
  | «when» condition steps =>
    simp [Step.toJson, Json.ownCall, Json.field?,
      Entries.get?, Json.single, stepCalls_toJson steps]
  | goto next => rfl
  | ret e => rfl

theorem stepCalls_toJson (p : List (String × Step)) :
    Json.itemCalls (stepsToJson p) = (stepCalls p).map .str := by
  cases p with
  | nil => rfl
  | cons s rest =>
    rw [stepsToJson, Json.itemCalls, mapCalls_namedStep, Step.mapCalls_toJson s.2,
      stepCalls_toJson rest, stepCalls, List.map_append]

theorem branchCalls_toJson (branches : List (String × List (String × Step))) :
    Json.itemCalls (branchStepsToJson branches) = (branchCalls branches).map .str := by
  cases branches with
  | nil => rfl
  | cons b rest =>
    rw [branchStepsToJson, Json.itemCalls,
      Json.mapCalls_single _ (by simp [Json.single, Json.text?]),
      Json.mapCalls_single _ (by simp [Json.text?]), Json.mapCalls, stepCalls_toJson b.2,
      branchCalls_toJson rest, branchCalls, List.map_append]

end

namespace StepProgram

/-- A document calls what its steps call. -/
theorem mapCalls_toJson (rootStep : String) (p : StepProgram) :
    (toJson rootStep p).mapCalls = (stepCalls p).map .str := by
  have hSteps : Json.itemCalls (p.fragments.map fun (name, body) => Json.single name body) =
      (stepCalls p).map .str := by
    rw [← stepCalls_toJson]
    congr 1
    induction p with
    | nil => rfl
    | cons s p ih => rw [stepsToJson, ← ih]; rfl
  have hFirst := mapCalls_namedStep mainStart (initAction rootStep)
  rw [Step.mapCalls_toJson, initAction, Step.calls] at hFirst
  have hLast := mapCalls_namedStep mainEnd (Step.ret (.read (.var mainPayload)))
  rw [Step.mapCalls_toJson, Step.calls] at hLast
  rw [toJson, assemble, Json.mapCalls_single _ (by simp [Json.text?])]
  simp [Json.ownCall, Json.field?, Entries.get?,
    Json.itemCalls_append, hSteps, hFirst, hLast, initAction]

end StepProgram

end Orchestration
