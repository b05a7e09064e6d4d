import Orchestration.Target.Fragment
import Orchestration.Target.StepProgram.Basic

/-!
# Workflows as step programs

A state is encoded as steps that thread the payload through one variable. The steps of a branch have
names and a payload variable of their own; the last value of the branch is put into its slot, a
variable that is shared with the parallel state.

A map whose body is a workflow calls another document. The body is lifted: it is set down
under the id of that document (`Lifting`), to be encoded in a second pass. What was lifted
before a failure stays so.
-/

namespace Orchestration

namespace StepProgram

def target : Target := .workflows

/-! ## Lifting -/

/-- A result, and the bodies that were lifted on the way to it, under the ids of their documents. -/
structure Lifting (α : Type) where
  lifted : List (String × Workflow)
  result : Except CompileError α

namespace Lifting

instance : Monad Lifting where
  pure a := ⟨[], .ok a⟩
  bind x f :=
    match x.result with
    | .ok a => ⟨x.lifted ++ (f a).lifted, (f a).result⟩
    | .error e => ⟨x.lifted, .error e⟩

/-- A result without lifting. -/
def ofExcept {α : Type} (x : Except CompileError α) : Lifting α := ⟨[], x⟩

def lift (id : String) (body : Workflow) : Lifting Unit := ⟨[(id, body)], .ok ()⟩

end Lifting

/-! ## Names -/

/-- A name with an underscore for everything but letters, digits and underscores. -/
def ident (name : String) : String :=
  String.ofList (name.toList.map fun c => if c.isAlphanum || c == '_' then c else '_')

/-- Where steps stand: in the document of an id, or in a branch of it. -/
structure Scope where
  documentId : String
  resolver : Resolver
  payloadVar : String
  /-- The step that ends the document or the branch. -/
  endStep : String
  /-- The slot of the branch. -/
  slot : Option String

/-- The variable that holds the payload of a document. -/
def mainPayload : String := "payload"

def mainEnd : String := "workflow_end"

def mainStart : String := "init"

/-- The names that a document has besides those of its states. -/
def reserved : List String := [mainStart, mainEnd]

namespace Scope

def top (resolver : Resolver) (documentId : String) : Scope :=
  ⟨documentId, resolver, mainPayload, mainEnd, none⟩

def name (sc : Scope) (n : String) : String :=
  match sc.slot with
  | some slot => slot ++ "_" ++ ident n
  | none => ident n

def next (sc : Scope) : Option String → String
  | some n => sc.name n
  | none => sc.endStep

def place (sc : Scope) (path : String) : Place := .field sc.payloadVar path

def post (sc : Scope) (activity : String) (payload : Template) (result : String) :
    Except CompileError Step := do
  pure (.post (← addressOf sc.resolver activity) payload result)

/-- What an element is sent with: itself, or itself among the common parameters. -/
def elementPayload (sc : Scope) (m : MapState) (element : String) : Template :=
  match m.paramPaths with
  | [] => .var element
  | paths =>
    .object (Entries.insertAll [("array_element", .var element)]
      (paths.map fun p => (p, Template.expr (.read (sc.place p)))))

def inBranch (sc : Scope) (slot : String) : Scope :=
  { sc with payloadVar := slot ++ "_payload", endStep := slot ++ "_done", slot := some slot }

end Scope

/-! ## States without workflows -/

def taskSteps (sc : Scope) (name : String) (t : TaskState) : Except CompileError StepProgram := do
  let call ← sc.post t.activity (.var sc.payloadVar) sc.payloadVar
  pure [(sc.name name, call),
    (sc.name (name ++ "_result"),
      .assign [(.var sc.payloadVar, .expr (.read (.field sc.payloadVar "body")))]
        (some (sc.next t.next)))]

def chainSteps (sc : Scope) : List (String × TaskState) → Except CompileError StepProgram
  | [] => .ok []
  | (name, t) :: rest => do
    let steps ← taskSteps sc name t
    pure (steps ++ (← chainSteps sc rest))

def condition (sc : Scope) (c : Case) : Condition :=
  ⟨.compare (sc.place c.var) c.op c.val, sc.name c.next⟩

def switchSteps (sc : Scope) (name : String) (s : SwitchState) : StepProgram :=
  [(sc.name name, .switch (s.cases.map (condition sc)) (sc.next s.default))]

def loopSteps (sc : Scope) (name : String) (l : LoopState) : Except CompileError StepProgram := do
  let element := sc.name (name ++ "_element")
  let response := sc.name (name ++ "_response")
  let call ← sc.post l.activity (.var element) response
  pure [(sc.name name, .forEach element (sc.place l.array) [(sc.name (name ++ "_invoke"), call)]),
    (sc.name (name ++ "_done"), .goto (sc.next l.next))]

/-- The steps of a map whose body is one call. The results are stored by
position and then listed. -/
def inlineMap (sc : Scope) (name : String) (m : MapState) (activity : String) :
    Except CompileError StepProgram := do
  let results := sc.name (name ++ "_results")
  let list := sc.name (name ++ "_list")
  let element := sc.name (name ++ "_element")
  let index := sc.name (name ++ "_index")
  let response := sc.name (name ++ "_response")
  let position := sc.name (name ++ "_position")
  let array := sc.place m.array
  let call ← sc.post activity (sc.elementPayload m element) response
  let store : Step := .assign [(.keyed results index, .expr (.read (.field response "body")))] none
  let gather : Step := .assign [(.var list, .expr (.append list (.keyed results position)))] none
  pure [
    (sc.name name, .assign [(.var results, .emptyObject), (.var list, .emptyList)] none),
    (sc.name (name ++ "_fanout"),
      .parallelFor results m.maxConcurrency element index array
        [(sc.name (name ++ "_invoke"), call), (sc.name (name ++ "_store"), store)]),
    (sc.name (name ++ "_gather"),
      .forPositions position array [(sc.name (name ++ "_append"), gather)]),
    (sc.name (name ++ "_writeback"), .assign [(array, .var list)] (some (sc.next m.next)))]

/-- The id of the document that a map's body is lifted into. -/
def liftedId (sc : Scope) (name : String) : String := sc.documentId ++ "_" ++ sc.name name

/-- The steps of a map whose body is lifted; `next` is where it goes on to. -/
def liftedMap (sc : Scope) (name : String) (m : MapState) (next : Option String) (body : Workflow) :
    Lifting StepProgram := do
  let id := liftedId sc name
  Lifting.lift id body
  let elements := sc.name (name ++ "_elements")
  let item := sc.name (name ++ "_item")
  let results := sc.name (name ++ "_results")
  let element := sc.name (name ++ "_element")
  let argument : Template :=
    .object [("payload", sc.elementPayload m element), (requestIdVar, .var requestIdVar)]
  let append : Step :=
    .assign [(.var item, argument), (.var elements, .expr (.append elements (.var item)))] none
  pure [
    (sc.name name, .assign [(.var elements, .emptyList)] none),
    (sc.name (name ++ "_collect"),
      .forEach element (sc.place m.array) [(sc.name (name ++ "_append"), append)]),
    (sc.name (name ++ "_call"), .runMap id elements results),
    (sc.name (name ++ "_writeback"),
      .assign [(sc.place m.array, .var results)] (some (sc.next next)))]

def mapSteps (sc : Scope) (name : String) (m : MapState) : Lifting StepProgram :=
  match m.body with
  | .activity activity => .ofExcept (inlineMap sc name m activity)
  | .workflow body => liftedMap sc name m m.next body

/-! ## Branches -/

/-- The names of the slots of a parallel state. -/
def slots (sc : Scope) (name : String) (branches : List Branch) : List String :=
  branches.map fun b => sc.name (name ++ "_" ++ b.key)

/-- The steps that put the last value of a branch into its slot. -/
def finishSteps (slot : String) (payloadVar : String) (array : Option String) : StepProgram :=
  match array with
  | some array =>
    [(slot ++ "_done", .assign [(.var slot, .expr (.read (.field payloadVar array)))] none),
      (slot ++ "_unwrap", .when (.isSingle slot)
        [(slot ++ "_single", .assign [(.var slot, .expr (.read (.item slot 0)))] none)])]
  | none => [(slot ++ "_done", .assign [(.var slot, .var payloadVar)] none)]

/-- The names that a branch has besides those of its states. -/
def branchReserved (slot : String) : List String :=
  [slot ++ "_start", slot ++ "_done", slot ++ "_unwrap"]

/-- The steps of a branch around those of its states. -/
def wrapBranch (sc : Scope) (state slot root : String) (steps : StepProgram)
    (array : Option String) : Except CompileError (String × StepProgram) :=
  let inner := sc.inBranch slot
  match steps.find? fun s => (branchReserved slot).contains s.1 with
  | some (taken, _) => .error (.invalid target state (.nameTaken taken))
  | none =>
    let start : Step :=
      .assign [(.var inner.payloadVar, .var sc.payloadVar)] (some (inner.name root))
    .ok (slot, (slot ++ "_start", start) :: (steps ++ finishSteps slot inner.payloadVar array))

/-- The steps of a parallel state around those of its branches. -/
def parallelSteps (sc : Scope) (name : String) (p : ParallelState)
    (branches : List (String × StepProgram)) : StepProgram :=
  let slotNames := slots sc name p.branches
  let merged := Entries.ofWrites ((p.branches.map Branch.key).zip (slotNames.map Template.var))
  [(sc.name name, .assign (slotNames.map fun s => (.var s, .null)) none),
    (sc.name (name ++ "_branches"), .parallel slotNames branches),
    (sc.name (name ++ "_merge"),
      .assign [(.var sc.payloadVar, .object merged)] (some (sc.next p.next)))]

mutual

def statesSteps (sc : Scope) (taken : List String) : List (String × State) → Lifting StepProgram
  | [] => pure []
  | (name, s) :: rest => do
    let steps ← stateSteps sc name s
    let taken ← .ofExcept (claimNames target name taken (steps.map Prod.fst))
    let more ← statesSteps sc taken rest
    pure (steps ++ more)

def stateSteps (sc : Scope) (name : String) : State → Lifting StepProgram
  | .task t => .ofExcept (taskSteps sc name t)
  | .switch s => pure (switchSteps sc name s)
  | .map m => mapSteps sc name m
  | .repeat r => .ofExcept (chainSteps sc (r.unrolled name))
  | .loop l => .ofExcept (loopSteps sc name l)
  | .parallel ⟨branches, next⟩ => do
    let steps ← branchesSteps sc name branches
    pure (parallelSteps sc name ⟨branches, next⟩ steps)

/-- The steps of branches, under their slots. -/
def branchesSteps (sc : Scope) (name : String) : List Branch → Lifting (List (String × StepProgram))
  | [] => pure []
  | b :: rest => do
    let slot := sc.name (name ++ "_" ++ b.key)
    let (steps, array) ← branchSteps (sc.inBranch slot) name b
    let branch ← .ofExcept (wrapBranch sc name slot b.workflow.root steps array)
    let more ← branchesSteps sc name rest
    pure (branch :: more)

/-- The steps of the states of a branch, and the array that holds its result if
it starts with a map. -/
def branchSteps (sc : Scope) (name : String) : Branch → Lifting (StepProgram × Option String)
  | ⟨bname, ⟨root, states⟩⟩ =>
    match Entries.get? root states with
    | some (.task _) => do
      let steps ← statesSteps sc reserved states
      pure (steps, none)
    | some (.map m) => do
      let steps ← match Branch.elementWorkflow ⟨bname, ⟨root, states⟩⟩ with
        | some element => liftedMap sc root m none element
        | none => mapSteps sc root m
      pure (steps, some m.array)
    | some s => .ofExcept (.error (.unsupported target s.kind name))
    | none => .ofExcept (.error (.invalid target name (.undeclaredRoot root)))

end

/-! ## Documents -/

def initAction (root : String) : Step :=
  .assign [(.var mainPayload, .expr (.read (.field "input" "payload"))),
    (.var requestIdVar, .expr (.read (.field "input" "request_id")))] (some root)

/-- The document that has the fragments as its steps. -/
def assemble (rootStep : String) (fs : List Fragment) : Json :=
  let first := Json.single mainStart (initAction rootStep).toJson
  let last := Json.single mainEnd (Step.ret (.read (.var mainPayload))).toJson
  .single "main" (.obj [("params", .arr [.str "input"]),
    ("steps", .arr (first :: (fs.map fun (name, body) => Json.single name body) ++ [last]))])

def encodeState (sc : Scope) (name : String) (s : State) : Lifting (List Fragment) := do
  let steps ← stateSteps sc name s
  pure steps.fragments

def toJson (rootStep : String) (p : StepProgram) : Json := assemble rootStep p.fragments

end StepProgram

namespace Workflow

/-- The steps of a workflow, between the one that begins its document and the one that ends it. -/
def stepProgram (sc : StepProgram.Scope) (w : Workflow) : StepProgram.Lifting StepProgram :=
  StepProgram.statesSteps sc StepProgram.reserved w.states

def stepDocument (sc : StepProgram.Scope) (w : Workflow) : StepProgram.Lifting Json := do
  let steps ← w.stepProgram sc
  pure (StepProgram.toJson (sc.name w.root) steps)

end Workflow

end Orchestration
