import Mathlib.Data.List.TakeWhile
import Orchestration.Proofs.StateMachine.Simulation
import Orchestration.Proofs.StepProgram.Blocks
import Orchestration.Proofs.StepProgram.Execution
import Orchestration.Proofs.StepProgram.Isolation

/-!
# The payloads that documents send for elements

The steps of a map go through its elements in a loop. For each of them a payload is sent, either in
the body of a call or in an argument that is put together for another document. In the document both
are texts with expressions in them.

* `evalValue`: the value of such a text, read off the JSON value of a step. The first dot
  ends the name of a variable.
* `Template.evalValue_toJson`: it is the value of the template that the text was written for.
* `sentPayloads`: what is sent for the elements, in their order, by the first loop over
  items in some fragments.
* `MapState.sentPayloads_stateSteps`, `MapState.sentPayloads_branchSteps`: what is encoded for a
  map, be it a state or the root of a branch, sends the inputs of the map.
-/

namespace Orchestration

namespace StepProgram

variable {vars : Entries Json} {payload : Json} {m : MapState} {sc : Scope} {element : String}
  {inputs : List Json}

/-! ## Expressions in documents -/

/-- The text of an expression without its marks, if the text is one. -/
def expressionBody? (text : String) : Option (List Char) := do
  let body ← text.toList.dropPrefix? "$\x7b".toList
  body.dropSuffix? "\x7d".toList

/-- The value of a variable, or at a path inside one, by its text. -/
def readBody (vars : Entries Json) (body : List Char) : Option Json :=
  match body.dropWhile (· ≠ '.') with
  | [] => vars.get? (.ofList body)
  | _ :: path => do
    (Path.get (← vars.get? (.ofList (body.takeWhile (· ≠ '.')))) (.ofList path)).toOption

mutual

/-- A value in a document, with the values of its expressions put in, which are taken
for places to be read. -/
def evalValue (vars : Entries Json) : Json → Option Json
  | .str text =>
    match expressionBody? text with
    | some body => readBody vars body
    | none => some (.str text)
  | .arr items => (evalItems vars items).map .arr
  | .obj fields => (evalFields vars fields).map .obj
  | v => some v

def evalItems (vars : Entries Json) : List Json → Option (List Json)
  | [] => some []
  | v :: rest => do some ((← evalValue vars v) :: (← evalItems vars rest))

def evalFields (vars : Entries Json) : List (String × Json) → Option (Entries Json)
  | [] => some []
  | (k, v) :: rest => do
    let v ← evalValue vars v
    some ((k, v) :: (← evalFields vars rest))

end

theorem expressionBody?_text (e : Expr) : expressionBody? e.text = some e.body.toList := by
  have hText : e.text.toList = "$\x7b".toList ++ (e.body.toList ++ "\x7d".toList) := by
    rw [Expr.text, String.toList_append, String.toList_append, List.append_assoc]
  rw [expressionBody?, hText, List.dropPrefix?_append_of_beq _ (beq_self_eq_true _),
    Option.bind_eq_bind, Option.bind_some, List.dropSuffix?_eq_some_iff]
  exact ⟨_, rfl, beq_self_eq_true _⟩

/-- A variable without a dot in its name, or a path inside one. -/
inductive IsReadable : Place → Prop
  | var {name : String} (hName : '.' ∉ name.toList) : IsReadable (.var name)
  | field {name : String} (hName : '.' ∉ name.toList) (path : String) :
    IsReadable (.field name path)

theorem readBody_text {p : Place} (h : IsReadable p) :
    readBody vars p.text.toList = p.read vars := by
  have hChars {name : String} (hName : '.' ∉ name.toList) : ∀ c ∈ name.toList,
      decide (c ≠ '.') = true := by
    intro c hc
    have hNe : c ≠ '.' := by
      rintro rfl
      exact hName hc
    exact decide_eq_true hNe
  cases h with
  | @var name hName =>
    have hRest : name.toList.dropWhile (· ≠ '.') = [] :=
      List.dropWhile_eq_nil_iff.mpr (hChars hName)
    rw [Place.text, readBody, hRest, Place.read]
    simp
  | @field name hName path =>
    have hText : (Place.field name path).text.toList = name.toList ++ '.' :: path.toList := by
      simp [Place.text]
    have hRest : (name.toList ++ '.' :: path.toList).dropWhile (· ≠ '.') = '.' :: path.toList := by
      rw [List.dropWhile_append_of_pos (hChars hName)]
      rfl
    have hFirst : (name.toList ++ '.' :: path.toList).takeWhile (· ≠ '.') = name.toList := by
      rw [List.takeWhile_append_of_pos (hChars hName)]
      simp
    rw [hText, readBody, hRest, hFirst, Place.read]
    simp

/-- Such places, and objects of what is made of them. -/
inductive IsPlain : Template → Prop
  | read {p : Place} (h : IsReadable p) : IsPlain (.expr (.read p))
  | object {fields : List (String × Template)} (h : ∀ e ∈ fields, IsPlain e.2) :
    IsPlain (.object fields)

theorem evalFields_toJson {fields : List (String × Template)}
    (h : ∀ e ∈ fields, evalValue vars e.2.toJson = e.2.eval vars) :
    evalFields vars (Template.fieldsToJson fields) = fieldsEval vars fields := by
  induction fields with
  | nil => rfl
  | cons e rest ih =>
    obtain ⟨k, t⟩ := e
    obtain ⟨hHead, hRest⟩ := List.forall_mem_cons.mp h
    rw [Template.fieldsToJson, evalFields, hHead, ih hRest, fieldsEval]

/-- What a document says is what the template says that it was written for. -/
theorem evalValue_toJson {t : Template} (h : IsPlain t) :
    evalValue vars t.toJson = t.eval vars := by
  induction h with
  | @read p hPlace =>
    rw [Template.toJson, evalValue, expressionBody?_text]
    exact readBody_text hPlace
  | object _ ih => rw [Template.toJson, evalValue, evalFields_toJson ih, Template.eval]

/-! ## Element payloads -/

theorem fieldsEval_eq_readAll (vars : Entries Json) (fields : List (String × Template)) :
    fieldsEval vars fields = readAll (Template.eval vars) fields := by
  induction fields with
  | nil => rfl
  | cons e rest ih =>
    obtain ⟨k, t⟩ := e
    rw [fieldsEval, readAll, ih]

theorem elementPayload_of_nil (hNone : m.paramPaths = []) :
    sc.elementPayload m element = .var element := by
  rw [Scope.elementPayload, hNone]

theorem elementPayload_of_ne (hSome : m.paramPaths ≠ []) :
    sc.elementPayload m element = .object (Entries.insertAll [("array_element", .var element)]
      (m.paramPaths.map fun p => (p, Template.expr (.read (sc.place p))))) := by
  unfold Scope.elementPayload
  cases hPaths : m.paramPaths with
  | nil => exact absurd hPaths hSome
  | cons p rest => rfl

theorem isPlain_elementPayload (hPayload : '.' ∉ sc.payloadVar.toList)
    (hElement : '.' ∉ element.toList) :
    IsPlain (sc.elementPayload m element) := by
  have hOwn : IsPlain (.var element) := .read (.var hElement)
  by_cases hNone : m.paramPaths = []
  · rw [elementPayload_of_nil hNone]
    exact hOwn
  · rw [elementPayload_of_ne hNone]
    have hPlace (p : String) : IsPlain (.expr (.read (sc.place p))) := .read (.field hPayload p)
    exact .object (forall_mem_elementFields hOwn fun p _ => hPlace p)

theorem eval_elementPayload {shared : Entries Json} {item : Json} (hSome : m.paramPaths ≠ [])
    (h : sharedParams payload m.paramPaths = .ok shared)
    (hPayload : vars.get? sc.payloadVar = some payload) (hElement : vars.get? element = some item) :
    (sc.elementPayload m element).eval vars = some (elementInput shared item) := by
  have hOwn : (Template.var element).eval vars = some item := hElement
  have hPlace : ∀ p v, Path.get payload p = .ok v →
      (Template.expr (.read (sc.place p))).eval vars = some v := by
    intro p v hGet
    simp [Template.eval, Expr.eval, Scope.place, Place.read, hPayload, hGet, Except.toOption]
  rw [elementPayload_of_ne hSome, Template.eval, fieldsEval_eq_readAll,
    readAll_elementFields hOwn hPlace h]
  rfl

/-- With one element after the other in the variable, the payloads are the inputs of the map. -/
theorem mapM_eval_elementPayload (h : m.inputs payload = .ok inputs)
    (hPayload : vars.get? sc.payloadVar = some payload) (hElement : sc.payloadVar ≠ element) :
    ∃ elements, Path.get payload m.array = .ok (.arr elements) ∧
      elements.mapM (fun item => (sc.elementPayload m element).eval (vars.insert element item)) =
        some inputs := by
  obtain ⟨elements, hGet, hEach⟩ := MapState.inputs_eq_ok_iff.mp h
  refine ⟨elements, hGet, mapM_eq_some_iff.mpr ?_⟩
  have hItem (item : Json) : (vars.insert element item).get? element = some item :=
    Entries.get?_insert_self element item vars
  rcases hEach with ⟨hNone, rfl⟩ | ⟨hSome, shared, hShared, rfl⟩
  · rw [elementPayload_of_nil hNone]
    exact List.forall₂_same.mpr fun item _ => hItem item
  · rw [List.forall₂_map_right_iff]
    refine List.forall₂_same.mpr fun item _ => eval_elementPayload hSome hShared ?_ (hItem item)
    rw [Entries.get?_insert_of_ne hElement, hPayload]

/-! ## Loops in documents -/

/-- The value of the only field of an object. -/
def onlyField? : Json → Option Json
  | .obj [(_, v)] => some v
  | _ => none

/-- The loop of a fragment, be it on its own or one whose rounds go side by side. -/
def loop? (fragment : Json) : Option Json :=
  match fragment.field? "parallel" with
  | some calls => calls.field? "for"
  | none => fragment.field? "for"

/-- What a step sends: the payload of a call, or of the argument that it puts together. -/
def sentPayload? (step : Json) : Option Json :=
  match step.field? "args" with
  | some args => do (← args.field? "body").field? "payload"
  | none => do
    let writes ← (← step.field? "assign").items?
    (← onlyField? (← writes.head?)).field? "payload"

/-- What the first step of a loop over items sends, one round after the other. -/
def loopPayloads (vars : Entries Json) (loop : Json) : Option (List Json) := do
  let items ← (← evalValue vars (← loop.field? "in")).items?
  let name ← (← loop.field? "value").text?
  let steps ← (← loop.field? "steps").items?
  let payload ← sentPayload? (← onlyField? (← steps.head?))
  items.mapM fun item => evalValue (vars.insert name item) payload

/-- What is sent by the first loop in some fragments. -/
def sentPayloads (vars : Entries Json) (fragments : List Fragment) : Option (List Json) := do
  loopPayloads vars (← fragments.findSome? fun f => loop? f.2)

/-! ## Names -/

/-- The scopes of documents and of the branches inside them. -/
inductive Stands : Scope → Prop
  | document (resolver : Resolver) (id : String) : Stands (.top resolver id)
  | branch {sc : Scope} (h : Stands sc) (name : String) (b : Branch) :
    Stands (sc.inBranch (slotOf sc name b))

theorem dot_not_mem_ident (name : String) : '.' ∉ (ident name).toList := by
  rw [ident, String.toList_ofList, List.mem_map]
  rintro ⟨c, -, hDot⟩
  split at hDot
  · rename_i hKept
    subst hDot
    exact absurd hKept (by decide)
  · exact absurd hDot (by decide)

/-- No variable of a scope has a dot in its name. -/
theorem Stands.dot_not_mem (h : Stands sc) :
    '.' ∉ sc.payloadVar.toList ∧ ∀ n, '.' ∉ (sc.name n).toList := by
  induction h with
  | document resolver id =>
    have hPayload : '.' ∉ mainPayload.toList := by decide
    exact ⟨hPayload, dot_not_mem_ident⟩
  | @branch sc _ name b ih =>
    have hNames : ∀ n, '.' ∉ ((sc.inBranch (slotOf sc name b)).name n).toList := by
      intro n
      rw [slotOf, Scope.inBranch_name]
      exact ih.2 _
    refine ⟨?_, hNames⟩
    rw [Scope.inBranch_payloadVar]
    exact hNames "payload"

/-- The payload and the element of a map are in variables whose names end differently. -/
theorem Stands.payloadVar_ne (h : Stands sc) (name : String) :
    sc.payloadVar ≠ sc.name (name ++ "_element") := by
  have hElement : (sc.name (name ++ "_element")).toList.getLast? = some 't' := by
    have hEnding : ident "_element" = "_element" := by decide
    rw [Scope.name_append, hEnding]
    simp
  have hPayload : sc.payloadVar.toList.getLast? = some 'd' := by
    cases h with
    | document resolver id =>
      have hLast : mainPayload.toList.getLast? = some 'd' := by decide
      exact hLast
    | branch _ name b => simp [Scope.inBranch]
  intro hEq
  rw [hEq, hElement] at hPayload
  cases hPayload

/-! ## What maps are encoded as -/

/-- A loop over the elements that sends the payload of each in its first step. -/
structure LoopsOver (loop : Json) (sc : Scope) (m : MapState) (element : String) : Prop where
  items : loop.field? "in" = some (.str (Expr.read (sc.place m.array)).text)
  value : loop.field? "value" = some (.str element)
  sends : ∃ name step rest, loop.field? "steps" = some (.arr (.obj [(name, step)] :: rest)) ∧
    sentPayload? step = some (sc.elementPayload m element).toJson

theorem LoopsOver.loopPayloads {loop : Json} (h : LoopsOver loop sc m element)
    (hInputs : m.inputs payload = .ok inputs) (hPayload : vars.get? sc.payloadVar = some payload)
    (hPlain : '.' ∉ sc.payloadVar.toList) (hElement : '.' ∉ element.toList)
    (hNe : sc.payloadVar ≠ element) : loopPayloads vars loop = some inputs := by
  obtain ⟨elements, hGet, hEach⟩ := mapM_eval_elementPayload hInputs hPayload hNe
  have hItems : evalValue vars (.str (Expr.read (sc.place m.array)).text) =
      some (.arr elements) := by
    have hPlace : IsPlain (.expr (.read (sc.place m.array))) := .read (.field hPlain m.array)
    rw [← Template.toJson, evalValue_toJson hPlace]
    simp [Template.eval, Expr.eval, Scope.place, Place.read, hPayload, hGet, Except.toOption]
  have hTexts (item : Json) :
      evalValue (vars.insert element item) (sc.elementPayload m element).toJson =
      (sc.elementPayload m element).eval (vars.insert element item) :=
    evalValue_toJson (isPlain_elementPayload hPlain hElement)
  obtain ⟨name, step, rest, hSteps, hSent⟩ := h.sends
  simp only [StepProgram.loopPayloads, h.items, hItems, h.value, hSteps, Json.items?, Json.text?,
    Option.bind_eq_bind, Option.bind_some, List.head?_cons, onlyField?, hSent, hTexts, hEach]

/-- The first loop in the steps of a map goes over its elements. -/
def LoopsFirst (p : StepProgram) (sc : Scope) (m : MapState) (name : String) : Prop :=
  ∃ loop, p.fragments.findSome? (fun f => loop? f.2) = some loop ∧
    LoopsOver loop sc m (sc.name (name ++ "_element"))

theorem inlineMap_loopsFirst {name activity : String} {p : StepProgram}
    (h : inlineMap sc name m activity = .ok p) :
    LoopsFirst p sc m name := by
  obtain ⟨url, -, rfl⟩ := inlineMap_eq_ok_iff.mp h
  rw [LoopsFirst]
  cases m.maxConcurrency <;> exact ⟨_, rfl, rfl, rfl, _, _, _, rfl, rfl⟩

theorem liftedMap_loopsFirst {name : String} {next : Option String} {body : Workflow}
    {lifted : List (String × Workflow)} {p : StepProgram}
    (h : liftedMap sc name m next body = ⟨lifted, .ok p⟩) :
    LoopsFirst p sc m name := by
  obtain ⟨-, rfl⟩ := liftedMap_eq_ok_iff.mp h
  exact ⟨_, rfl, rfl, rfl, _, _, _, rfl, rfl⟩

theorem mapSteps_loopsFirst {name : String} {lifted : List (String × Workflow)} {p : StepProgram}
    (h : mapSteps sc name m = ⟨lifted, .ok p⟩) : LoopsFirst p sc m name := by
  rcases mapSteps_eq_ok h with ⟨activity, -, -, hInline⟩ | ⟨body, -, hLifted⟩
  · exact inlineMap_loopsFirst hInline
  · exact liftedMap_loopsFirst hLifted

/-- A map at the root of a branch is lifted with the rest of the branch, if there is any, else it
is encoded as a state. -/
theorem branchSteps_loopsFirst {name : String} {b : Branch}
    (hRoot : b.workflow.rootState? = some (.map m)) {lifted : List (String × Workflow)}
    {steps : StepProgram} {array : Option String}
    (h : branchSteps sc name b = ⟨lifted, .ok (steps, array)⟩) :
    LoopsFirst steps sc m b.workflow.root := by
  obtain ⟨bname, root, states⟩ := b
  have hGet : Entries.get? root states = some (.map m) := hRoot
  rw [branchSteps, hGet] at h
  dsimp only at h
  cases hElement : Branch.elementWorkflow ⟨bname, ⟨root, states⟩⟩ with
  | some element =>
    rw [hElement] at h
    exact liftedMap_loopsFirst (Lifting.of_bind_pure_pair h)
  | none =>
    rw [hElement] at h
    exact mapSteps_loopsFirst (Lifting.of_bind_pure_pair h)

/-- Where a scope stands, its payload is in a variable of its own, which loops leave alone. -/
theorem LoopsFirst.sentPayloads {p : StepProgram} {name : String} (h : LoopsFirst p sc m name)
    (hStands : Stands sc) (hInputs : m.inputs payload = .ok inputs)
    (hPayload : vars.get? sc.payloadVar = some payload) :
    sentPayloads vars p.fragments = some inputs := by
  obtain ⟨loop, hFirst, hLoop⟩ := h
  rw [StepProgram.sentPayloads, hFirst]
  exact hLoop.loopPayloads hInputs hPayload hStands.dot_not_mem.1 (hStands.dot_not_mem.2 _)
    (hStands.payloadVar_ne name)

end StepProgram

open StepProgram

variable {vars : Entries Json} {payload : Json} {m : MapState} {sc : Scope} {inputs : List Json}
  {lifted : List (String × Workflow)}

theorem MapState.sentPayloads_encodeState (h : m.inputs payload = .ok inputs) (hStands : Stands sc)
    (hPayload : vars.get? sc.payloadVar = some payload) {name : String} {documents : List Fragment}
    (hDocuments : StepProgram.encodeState sc name (.map m) = ⟨lifted, .ok documents⟩) :
    sentPayloads vars documents = some inputs := by
  obtain ⟨_, steps, _, hSteps, hPure, -⟩ := Lifting.bind_eq_ok_iff.mp hDocuments
  obtain ⟨-, rfl⟩ := Lifting.pure_eq_ok_iff.mp hPure
  rw [stateSteps] at hSteps
  exact (mapSteps_loopsFirst hSteps).sentPayloads hStands h hPayload

theorem MapState.sentPayloads_branchSteps (h : m.inputs payload = .ok inputs) (hStands : Stands sc)
    (hPayload : vars.get? sc.payloadVar = some payload) {name : String} {b : Branch}
    {steps : StepProgram} {array : Option String} (hRoot : b.workflow.rootState? = some (.map m))
    (hSteps : branchSteps sc name b = ⟨lifted, .ok (steps, array)⟩) :
    sentPayloads vars steps.fragments = some inputs :=
  (branchSteps_loopsFirst hRoot hSteps).sentPayloads hStands h hPayload

end Orchestration
