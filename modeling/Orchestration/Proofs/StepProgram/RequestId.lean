import Orchestration.Proofs.StepProgram.Blocks
import Orchestration.Proofs.StepProgram.Isolation
import Orchestration.Proofs.StepProgram.Lists
import Orchestration.Proofs.StepProgram.Simulation

/-!
# The id of a run in documents

A document keeps the id of its run in one variable, beside variables that are named after
its states and branches. All posts and all arguments for other documents are sent with
what this variable holds.

* `KeepsRequestId`: after the first step of a document nothing sets the variable, and
  whatever is sent carries it.
* `KeepsRequestId.sends`: whatever such a document sends has the id that it was started with, in
  whatever order its steps come.
* `Workflow.keepsRequestId_iff`: a document keeps the id if and only if no branch `id` of a parallel
  state `request` outside all branches takes the variable for its slot.
-/

namespace Orchestration

/-! ## What documents do with the id -/

/-- The variables that a step sets itself, in assignments, as results, in loops,
and for its branches. -/
def Step.binds : Step → List String
  | .assign writes _ => writes.map fun w => w.1.variable
  | .post _ _ result | .runMap _ _ result => [result]
  | .forEach value _ _ | .forPositions value _ _ => [value]
  | .parallelFor shared _ value index _ _ => [shared, value, index]
  | .parallel shared _ => shared
  | .switch _ _ | .when _ _ | .goto _ | .ret _ => []

/-- If the value is that of a post, the body of the post has the variable with the id in it. -/
def Json.PostsRequestId (v : Json) : Prop :=
  v.field? "call" = some (.str "http.post") →
    ((v.fieldOrNull "args").fieldOrNull "body").field? "request_id" =
      some (.str "$\x7brequest_id\x7d")

/-- An argument for another document that has the variable with the id in it. -/
def Template.CarriesRequestId (t : Template) : Prop :=
  ∃ payload, t = .object [("payload", payload), ("request_id", .var "request_id")]

namespace StepProgram

/-- The step that puts together an argument for another document and adds it to those before. -/
def collectStep (item : String) (argument : Template) (list : String) : Step :=
  .assign [(.var item, argument), (.var list, .expr (.append list (.var item)))] none

/-- Before documents are called, a loop collects the arguments for them in a
list that starts empty. -/
def CollectsArguments (p : StepProgram) : Prop :=
  ∀ name id list result, (name, Step.runMap id list result) ∈ p →
    ∃ first loop value items inner item argument,
      [(first, .assign [(.var list, .emptyList)] none),
        (loop, .forEach value items [(inner, collectStep item argument list)]),
        (name, .runMap id list result)] <:+: p

/-- The steps leave the variable with the id as it is, and all that they send carries it. -/
structure KeepsRequestId (steps : StepProgram) : Prop where
  bound : Everywhere (fun s => "request_id" ∉ s.binds) steps
  posts : Everywhere (fun s => s.toJson.PostsRequestId) steps
  arguments : Everywhere (fun s => ∀ item argument list, s = collectStep item argument list →
    argument.CarriesRequestId) steps
  collected : ∀ list ∈ steps.lists, CollectsArguments list

/-! ## What documents send -/

/-- What may happen next while steps are under way, whichever of them: a step sets a variable, a
post sends a body, an argument is put together for another document. -/
inductive Acts (steps : StepProgram) (vars : Entries Json) : Option Json → Entries Json → Prop
  | set {list : StepProgram} {s : String × Step} {name : String} (hList : list ∈ steps.lists)
    (hStep : s ∈ list) (hBinds : name ∈ s.2.binds) (v : Json) :
      steps.Acts vars none (vars.insert name v)
  | post {list : StepProgram} {name url result : String} {payload : Template} {id v : Json}
    (hList : list ∈ steps.lists) (hStep : (name, Step.post url payload result) ∈ list)
    (hId : vars.get? requestIdVar = some id) (hPayload : payload.eval vars = some v) :
    steps.Acts vars (some (messageOf id v)) vars
  | collect {list : StepProgram} {name item into : String} {argument : Template} {v : Json}
    (hList : list ∈ steps.lists) (hStep : (name, collectStep item argument into) ∈ list)
    (hArgument : argument.eval vars = some v) : steps.Acts vars (some v) vars

/-- What steps may send from these variables on. -/
inductive Sends (steps : StepProgram) : Entries Json → List Json → Prop
  | nil (vars : Entries Json) : steps.Sends vars []
  | cons {vars vars' : Entries Json} {sent : Option Json} {rest : List Json}
    (hActs : steps.Acts vars sent vars') (hRest : steps.Sends vars' rest) :
    steps.Sends vars (sent.toList ++ rest)

end StepProgram

theorem Template.CarriesRequestId.eval {t : Template} (h : t.CarriesRequestId) {vars : Entries Json}
    {id v : Json} (hId : vars.get? "request_id" = some id) (hEval : t.eval vars = some v) :
    v.field? "request_id" = some id := by
  obtain ⟨payload, rfl⟩ := h
  have hVar : (Template.var "request_id").eval vars = some id := hId
  cases hPayload : payload.eval vars with
  | none => simp [Template.eval, fieldsEval, hPayload] at hEval
  | some u =>
    simp only [Template.eval, fieldsEval, hPayload, hVar, Option.bind_eq_bind, Option.bind_some,
      Option.map_some, Option.some.injEq] at hEval
    subst hEval
    rfl

namespace StepProgram

variable {steps : StepProgram}

/-- One act leaves the variable as it is, and what it sends has the id. -/
theorem KeepsRequestId.acts (h : KeepsRequestId steps) {vars vars' : Entries Json}
    {sent : Option Json} {id : Json} (hActs : steps.Acts vars sent vars')
    (hId : vars.get? "request_id" = some id) :
    vars'.get? "request_id" = some id ∧ ∀ v ∈ sent, v.field? "request_id" = some id := by
  cases hActs with
  | @set list s name hList hStep hBinds v =>
    refine ⟨?_, by simp⟩
    have hOther : "request_id" ≠ name := by
      rintro rfl
      exact h.bound list hList s hStep hBinds
    rw [Entries.get?_insert_of_ne hOther, hId]
  | post hList hStep hOwn hPayload =>
    refine ⟨hId, ?_⟩
    rintro v ⟨⟩
    cases hOwn.symm.trans hId
    rfl
  | @collect list name item into argument v hList hStep hArgument =>
    refine ⟨hId, ?_⟩
    rintro v ⟨⟩
    have hCarries := h.arguments list hList _ hStep item argument into rfl
    exact hCarries.eval hId hArgument

/-- All that is sent has the id with which the steps were begun. -/
theorem KeepsRequestId.sends (h : KeepsRequestId steps) {vars : Entries Json} {sent : List Json}
    {id : Json} (hSends : steps.Sends vars sent) (hId : vars.get? "request_id" = some id) :
    ∀ v ∈ sent, v.field? "request_id" = some id := by
  induction hSends with
  | nil => simp
  | cons hActs _ ih =>
    obtain ⟨hAfter, hSent⟩ := h.acts hActs hId
    intro v hv
    rcases List.mem_append.mp hv with hFirst | hRest
    · exact hSent v (by simpa using hFirst)
    · exact ih hAfter v hRest

/-! ## Names of variables -/

variable {sc : Scope} {lifted : List (String × Workflow)}

/-- What the names of variables of states end with. -/
def variableEndings : List String :=
  ["_results", "_list", "_element", "_index", "_response", "_position", "_elements", "_item"]

/-- The variables of states in this scope, slots apart, are others than the one with the id. -/
structure Scope.Clear (sc : Scope) : Prop where
  payload : "request_id" ≠ sc.payloadVar
  locals : ∀ name, ∀ ending ∈ variableEndings, "request_id" ≠ sc.name (name ++ ending)

theorem Scope.clear_top (resolver : Resolver) (id : String) : (Scope.top resolver id).Clear := by
  refine ⟨by simp [Scope.top, mainPayload], fun name ending hEnding => ?_⟩
  have hEndings : ∀ e ∈ variableEndings,
      "request_id".toList.getLast? ≠ (ident e).toList.getLast? ∧ ident e ≠ "" := by decide
  obtain ⟨hLast, hSome⟩ := hEndings ending hEnding
  exact ne_ident_append hLast hSome

/-- All names in a branch have two marks. -/
theorem Scope.name_inBranch_ne (sc : Scope) (name : String) (b : Branch) (n : String) :
    "request_id" ≠ (sc.inBranch (slotOf sc name b)).name n := by
  -- One mark stands in the slot and one after it, but the variable has one in all.
  intro h
  have hMark : ident "_" = "_" := by decide
  rw [slotOf, Scope.inBranch_name] at h
  simp only [Scope.name_append, hMark] at h
  have hCount := congrArg (fun s => s.toList.count '_') h
  have hOne : "request_id".toList.count '_' = 1 := by decide
  have hEach : "_".toList.count '_' = 1 := by decide
  simp only [String.toList_append, List.count_append, hOne, hEach] at hCount
  omega

theorem Scope.clear_inBranch (sc : Scope) (name : String) (b : Branch) :
    (sc.inBranch (slotOf sc name b)).Clear := by
  refine ⟨?_, fun n ending _ => sc.name_inBranch_ne name b _⟩
  rw [Scope.inBranch_payloadVar]
  exact sc.name_inBranch_ne name b _

/-- Where there are no marks, nothing was replaced by one. -/
theorem eq_of_ident_eq {name known : String} (h : ident name = known)
    (hKnown : '_' ∉ known.toList) :
    name = known := by
  subst h
  rw [← String.toList_inj, ident, String.toList_ofList]
  simp only [ident, String.toList_ofList, List.mem_map, not_exists, not_and] at hKnown
  have hSame : ∀ c ∈ name.toList, (if c.isAlphanum || c == '_' then c else '_') = c := by
    intro c hc
    have hNot := hKnown c hc
    split
    · rfl
    · rename_i hOther
      simp [hOther] at hNot
  exact (List.map_congr_left hSame).trans (List.map_id _) |>.symm

/-- The one slot outside all branches that is the variable with the id. -/
theorem slotOf_top_eq_iff {resolver : Resolver} {id name : String} {b : Branch} :
    slotOf (.top resolver id) name b = "request_id" ↔ name = "request" ∧ b.key = "id" := by
  have hMark : ident "_" = "_" := by decide
  have hSlot : slotOf (.top resolver id) name b = ident name ++ "_" ++ ident b.key := by
    rw [slotOf, Scope.name_append, Scope.name_append, hMark]
    rfl
  rw [hSlot]
  constructor
  · intro h
    have hChars := congrArg String.toList h
    rw [String.toList_append, String.toList_append] at hChars
    have hKnown : "request_id".toList = "request".toList ++ '_' :: "id".toList := by decide
    have hOne : "_".toList = ['_'] := by decide
    rw [hKnown, hOne, List.append_assoc, List.singleton_append] at hChars
    obtain ⟨hName, -, hKey⟩ :=
      (List.append_cons_inj_of_notMem (by decide) (by decide)).mp hChars.symm
    exact ⟨eq_of_ident_eq (String.toList_inj.mp hName.symm) (by decide),
      eq_of_ident_eq (String.toList_inj.mp hKey.symm) (by decide)⟩
  · rintro ⟨rfl, hKey⟩
    rw [hKey]
    decide

/-! ## The blocks of states -/

/-- The step has no part in calling other documents. -/
def CallsNothing (s : Step) : Prop :=
  (∀ item argument list, s ≠ collectStep item argument list) ∧ ∀ id list result,
    s ≠ .runMap id list result

/-- Steps that send the id with everything, and set its variable unless they are free of it. -/
structure Threads (p : StepProgram) (free : Prop) : Prop where
  bound : Everywhere (fun s => "request_id" ∉ s.binds) p ↔ free
  arguments : Everywhere (fun s => ∀ item argument list, s = collectStep item argument list →
    argument.CarriesRequestId) p
  collected : ∀ list ∈ p.lists, CollectsArguments list

theorem CollectsArguments.append {p q : StepProgram} (hp : CollectsArguments p)
    (hq : CollectsArguments q) :
    CollectsArguments (p ++ q) := by
  intro name id list result hMem
  rcases List.mem_append.mp hMem with hMem | hMem
  · obtain ⟨first, loop, value, items, inner, item, argument, hIn⟩ := hp _ _ _ _ hMem
    exact ⟨first, loop, value, items, inner, item, argument,
      hIn.trans (List.prefix_append p q).isInfix⟩
  · obtain ⟨first, loop, value, items, inner, item, argument, hIn⟩ := hq _ _ _ _ hMem
    exact ⟨first, loop, value, items, inner, item, argument,
      hIn.trans (List.suffix_append p q).isInfix⟩

namespace Threads

/-- Steps that call no other documents. -/
theorem of_bound {p : StepProgram} {free : Prop}
    (hBound : Everywhere (fun s => "request_id" ∉ s.binds) p ↔ free)
    (hCalls : Everywhere CallsNothing p) :
    Threads p free := by
  refine ⟨hBound, ?_, ?_⟩
  · intro list hList s hs item argument into hCollect
    exact absurd hCollect ((hCalls list hList s hs).1 item argument into)
  · intro list hList name id into result hMem
    exact absurd rfl ((hCalls list hList _ hMem).2 id into result)

theorem nil : Threads [] True := of_bound (by simp [everywhere_nil]) everywhere_nil

theorem append {p q : StepProgram} {free free' : Prop} (hp : Threads p free)
    (hq : Threads q free') :
    Threads (p ++ q) (free ∧ free') := by
  refine ⟨?_, everywhere_append.mpr ⟨hp.arguments, hq.arguments⟩, ?_⟩
  · rw [everywhere_append, hp.bound, hq.bound]
  · have hOwn := (hp.collected p List.mem_cons_self).append (hq.collected q List.mem_cons_self)
    rw [lists, List.forall_mem_cons, innerLists_append, List.forall_mem_append]
    exact ⟨hOwn, fun list hList => hp.collected list (List.mem_cons_of_mem _ hList),
      fun list hList => hq.collected list (List.mem_cons_of_mem _ hList)⟩

theorem congr {p : StepProgram} {free free' : Prop} (h : Threads p free) (hIff : free ↔ free') :
    Threads p free' :=
  ⟨h.bound.trans hIff, h.arguments, h.collected⟩

/-- Blocks side by side. -/
theorem flatten {α : Type} {free : α → Prop} {as : List α} {blocks : List StepProgram}
    (h : List.Forall₂ (fun a block => Threads block (free a)) as blocks) :
    Threads (List.flatten blocks) (∀ a ∈ as, free a) := by
  induction h with
  | nil => exact nil.congr (by simp)
  | cons hHead _ ih => exact (hHead.append ih).congr List.forall_mem_cons.symm

theorem parallel {name : String} {shared : List String} {free : String × StepProgram → Prop}
    {programs : List (String × StepProgram)} (h : ∀ b ∈ programs, Threads b.2 (free b)) :
    Threads [(name, .parallel shared programs)]
      ("request_id" ∉ shared ∧ ∀ b ∈ programs, free b) := by
  refine ⟨?_, ?_, ?_⟩
  · rw [everywhere_cons, Step.lists, forall_mem_branchesLists]
    simp only [everywhere_nil, and_true, Step.binds]
    exact and_congr_right fun _ => forall₂_congr fun b hb => (h b hb).bound
  · rw [everywhere_cons, Step.lists, forall_mem_branchesLists]
    exact ⟨by simp [collectStep], fun b hb => (h b hb).arguments, everywhere_nil⟩
  · rw [lists, List.forall_mem_cons, innerLists, Step.lists, innerLists, List.append_nil,
      forall_mem_branchesLists]
    exact ⟨by simp [CollectsArguments], fun b hb => (h b hb).collected⟩

end Threads

theorem taskSteps_threads (hClear : sc.Clear) {name : String} {t : TaskState} {p : StepProgram}
    (h : taskSteps sc name t = .ok p) : Threads p True := by
  obtain ⟨url, -, rfl⟩ := taskSteps_eq_ok_iff.mp h
  apply Threads.of_bound
  · simp [everywhere_cons, everywhere_nil, Step.binds, Place.variable, hClear.payload]
  · simp [everywhere_cons, everywhere_nil, CallsNothing, collectStep]

theorem chainSteps_threads (hClear : sc.Clear) {tasks : List (String × TaskState)} {p : StepProgram}
    (h : chainSteps sc tasks = .ok p) : Threads p True := by
  induction tasks generalizing p with
  | nil =>
    cases h
    exact .nil
  | cons t rest ih =>
    obtain ⟨steps, hSteps, more, hMore, rfl⟩ := chainSteps_cons_eq_ok_iff.mp h
    exact ((taskSteps_threads hClear hSteps).append (ih hMore)).congr and_self_iff

theorem loopSteps_threads (hClear : sc.Clear) {name : String} {l : LoopState} {p : StepProgram}
    (h : loopSteps sc name l = .ok p) : Threads p True := by
  obtain ⟨url, -, rfl⟩ := loopSteps_eq_ok_iff.mp h
  apply Threads.of_bound
  · have hElement := hClear.locals name "_element" (by decide)
    have hResponse := hClear.locals name "_response" (by decide)
    simp [everywhere_cons, everywhere_nil, Step.binds, hElement, hResponse]
  · simp [everywhere_cons, everywhere_nil, CallsNothing, collectStep]

theorem inlineMap_threads (hClear : sc.Clear) {name activity : String} {m : MapState}
    {p : StepProgram} (h : inlineMap sc name m activity = .ok p) : Threads p True := by
  obtain ⟨url, -, rfl⟩ := inlineMap_eq_ok_iff.mp h
  clear h
  apply Threads.of_bound
  · have hResults := hClear.locals name "_results" (by decide)
    have hList := hClear.locals name "_list" (by decide)
    have hElement := hClear.locals name "_element" (by decide)
    have hIndex := hClear.locals name "_index" (by decide)
    have hResponse := hClear.locals name "_response" (by decide)
    have hPosition := hClear.locals name "_position" (by decide)
    simp [everywhere_cons, everywhere_nil, Step.binds, Place.variable, Scope.place, hResults, hList,
      hElement, hIndex, hResponse, hPosition, hClear.payload, or_imp, forall_and]
  · simp [everywhere_cons, everywhere_nil, CallsNothing, collectStep, or_imp, forall_and]

/-- The argument for each element has the id beside the payload. -/
theorem liftedMap_threads (hClear : sc.Clear) {name : String} {m : MapState} {next : Option String}
    {body : Workflow} {p : StepProgram} (h : liftedMap sc name m next body = ⟨lifted, .ok p⟩) :
    Threads p True := by
  obtain ⟨-, rfl⟩ := liftedMap_eq_ok_iff.mp h
  clear h
  refine ⟨?_, ?_, ?_⟩
  · have hElements := hClear.locals name "_elements" (by decide)
    have hItem := hClear.locals name "_item" (by decide)
    have hResults := hClear.locals name "_results" (by decide)
    have hElement := hClear.locals name "_element" (by decide)
    simp [everywhere_cons, everywhere_nil, Step.binds, Place.variable, Scope.place,
      hElements, hItem, hResults, hElement, hClear.payload]
  · have hCarries : ∀ payload, (Template.object
        [("payload", payload), (requestIdVar, .var requestIdVar)]).CarriesRequestId :=
      fun payload => ⟨payload, rfl⟩
    simp [everywhere_cons, everywhere_nil, collectStep, hCarries]
  · rw [lists, List.forall_mem_cons]
    refine ⟨?_, by simp [CollectsArguments]⟩
    intro call id list result hMem
    simp only [List.mem_cons, Prod.mk.injEq, reduceCtorEq, and_false, false_or, Step.runMap.injEq,
      List.not_mem_nil, or_false] at hMem
    obtain ⟨rfl, rfl, rfl, rfl⟩ := hMem
    exact ⟨_, _, _, _, _, _, _, List.prefix_append _ [_] |>.isInfix⟩

theorem mapSteps_threads (hClear : sc.Clear) {name : String} {m : MapState} {p : StepProgram}
    (h : mapSteps sc name m = ⟨lifted, .ok p⟩) : Threads p True := by
  rcases mapSteps_eq_ok h with ⟨activity, -, -, hInline⟩ | ⟨body, -, hLifted⟩
  · exact inlineMap_threads hClear hInline
  · exact liftedMap_threads hClear hLifted

/-- The last steps of a branch set its slot. -/
theorem finishSteps_threads (slot payloadVar : String) (array : Option String) :
    Threads (finishSteps slot payloadVar array) ("request_id" ≠ slot) := by
  apply Threads.of_bound
  · cases array <;> simp [finishSteps, everywhere_cons, everywhere_nil, Step.binds, Place.variable]
  · cases array <;> simp [finishSteps, everywhere_cons, everywhere_nil, CallsNothing, collectStep]

/-! ## Branches -/

/-- The slots of the branches of a state, if it has branches. -/
def slotNames (sc : Scope) (name : String) : State → List String
  | .parallel ⟨branches, _⟩ => slots sc name branches
  | .task _ | .switch _ | .map _ | .repeat _ | .loop _ => []

/-- No slot inside a branch is the variable with the id. -/
theorem not_mem_slotNames_inBranch (sc : Scope) (name : String) (b : Branch) (e : String × State) :
    "request_id" ∉ slotNames (sc.inBranch (slotOf sc name b)) e.1 e.2 := by
  obtain ⟨n, s⟩ := e
  cases s with
  | parallel p =>
    obtain ⟨branches, next⟩ := p
    intro h
    obtain ⟨c, -, hSlot⟩ := List.mem_map.mp h
    exact sc.name_inBranch_ne name b _ hSlot.symm
  | _ => simp [slotNames]

/-- A block is free of the variable if no slot of its state is the variable. -/
def BlockThreads (sc : Scope) (name : String) (s : State) (p : StepProgram) : Prop :=
  sc.Clear → Threads p ("request_id" ∉ slotNames sc name s)

/-- Besides its slot, the program of a branch sets variables of the branch only. -/
theorem aroundBlocks_threads {name : String} {b : Branch} {program : String × StepProgram}
    (h : AroundBlocks BlockThreads sc name b program) :
    program.1 = slotOf sc name b ∧ Threads program.2 ("request_id" ≠ program.1) := by
  obtain ⟨blocks, array, -, hWrap, hBlocks⟩ := h
  obtain ⟨-, rfl⟩ := wrapBranch_eq_ok_iff.mp hWrap
  have hClear := sc.clear_inBranch name b
  have hStates := Threads.flatten (hBlocks.imp fun e block hBlock => hBlock hClear)
  have hFinish :=
    finishSteps_threads (slotOf sc name b) (sc.inBranch (slotOf sc name b)).payloadVar array
  have hStart : Threads [(slotOf sc name b ++ "_start", .assign
      [(.var (sc.inBranch (slotOf sc name b)).payloadVar, .var sc.payloadVar)]
      (some ((sc.inBranch (slotOf sc name b)).name b.workflow.root)))] True := by
    apply Threads.of_bound
    · simp [everywhere_cons, everywhere_nil, Step.binds, Place.variable, hClear.payload]
    · simp [everywhere_cons, everywhere_nil, CallsNothing, collectStep]
  refine ⟨rfl, (hStart.append (hStates.append hFinish)).congr ?_⟩
  have hNone : ∀ e ∈ b.standing,
      "request_id" ∉ slotNames (sc.inBranch (slotOf sc name b)) e.1 e.2 :=
    fun e _ => not_mem_slotNames_inBranch sc name b e
  exact ⟨fun h => h.2.2, fun h => ⟨trivial, hNone, h⟩⟩

theorem parallelSteps_threads (hClear : sc.Clear) {name : String} {branches : List Branch}
    {next : Option String} {programs : List (String × StepProgram)}
    (h : List.Forall₂ (AroundBlocks BlockThreads sc name) branches programs) :
    Threads (parallelSteps sc name ⟨branches, next⟩ programs)
      ("request_id" ∉ slots sc name branches) := by
  have hFirst :
      Threads [(sc.name name, .assign ((slots sc name branches).map fun s => (.var s, .null)) none)]
        ("request_id" ∉ slots sc name branches) := by
    apply Threads.of_bound
    · simp [everywhere_cons, everywhere_nil, Step.binds, Function.comp_def, Place.variable]
    · simp [everywhere_cons, everywhere_nil, CallsNothing, collectStep, List.map_eq_cons_iff]
  have hLast : ∀ merged, Threads [(sc.name (name ++ "_merge"),
      .assign [(.var sc.payloadVar, .object merged)] (some (sc.next next)))] True := by
    refine fun merged => Threads.of_bound ?_ ?_
    · simp [everywhere_cons, everywhere_nil, Step.binds, Place.variable, hClear.payload]
    · simp [everywhere_cons, everywhere_nil, CallsNothing, collectStep]
  have hBranches : ∀ b ∈ programs, Threads b.2 ("request_id" ≠ b.1) := by
    intro program hMem
    obtain ⟨b, -, hAround⟩ := exists_of_forall₂ h.flip hMem
    exact (aroundBlocks_threads hAround).2
  -- The slots are named for the steps before and for the fork itself, and each branch sets its own.
  refine (hFirst.append ((Threads.parallel hBranches).append (hLast _))).congr ?_
  constructor
  · exact fun hFree => hFree.1
  · refine fun hFree => ⟨hFree, ⟨hFree, fun program hMem hSlot => ?_⟩, trivial⟩
    obtain ⟨b, hb, hAround⟩ := exists_of_forall₂ h.flip hMem
    rw [(aroundBlocks_threads hAround).1] at hSlot
    exact hFree (hSlot ▸ List.mem_map_of_mem hb)

theorem keptByEncoding_threads : KeptByEncoding BlockThreads := by
  refine ⟨fun {sc name s lifted p} hKind h hClear => ?_, fun _ h hClear =>
    parallelSteps_threads hClear h⟩
  have hNone : True ↔ "request_id" ∉ slotNames sc name s := by
    cases s <;> simp_all [slotNames, State.kind]
  refine Threads.congr ?_ hNone
  cases s with
  | task t => exact taskSteps_threads hClear (Lifting.ofExcept_eq_ok_iff.mp h).2
  | «switch» s =>
    obtain ⟨-, rfl⟩ := Lifting.pure_eq_ok_iff.mp h
    apply Threads.of_bound
    · simp [switchSteps, everywhere_cons, everywhere_nil, Step.binds]
    · simp [switchSteps, everywhere_cons, everywhere_nil, CallsNothing, collectStep]
  | map m => exact mapSteps_threads hClear h
  | «repeat» r => exact chainSteps_threads hClear (Lifting.ofExcept_eq_ok_iff.mp h).2
  | loop l => exact loopSteps_threads hClear (Lifting.ofExcept_eq_ok_iff.mp h).2
  | parallel p => exact absurd rfl hKind

/-- A step that posts sends the id in the body. -/
theorem postsRequestId_toJson (s : Step) : s.toJson.PostsRequestId := by
  intro hPost
  cases s with
  | post url payload result => rfl
  | runMap workflowId arguments result => simp [Step.toJson, Json.field?, Entries.get?] at hPost
  | assign writes next =>
    cases next <;> simp [Step.toJson, gotoField, Json.field?, Entries.get?] at hPost
  | parallelFor shared limit value index items steps =>
    simp [Step.toJson, Json.single, Json.field?, Entries.get?] at hPost
  | _ => simp [Step.toJson, Json.single, Json.field?, Entries.get?] at hPost

end StepProgram

/-! ## Documents -/

/-- A parallel state of the workflow itself has the variable with the id of the run as a slot. -/
def Workflow.TakesRequestId (w : Workflow) : Prop :=
  ∃ branches next, ("request", State.parallel ⟨branches, next⟩) ∈ w.states ∧ ∃ b ∈ branches,
    b.key = "id"

namespace StepProgram

/-- The steps of a document after its first one, which sets the variables. -/
def afterInit (p : StepProgram) : StepProgram := p ++ [(mainEnd, .ret (.read (.var mainPayload)))]

/-- The slots of the states of a document are free of the variable, one special state apart. -/
theorem slotNames_top_iff (resolver : Resolver) (id : String) {w : Workflow} :
    (∀ e ∈ w.states, "request_id" ∉ slotNames (.top resolver id) e.1 e.2) ↔ ¬ w.TakesRequestId := by
  constructor
  · rintro hFree ⟨branches, next, hState, b, hb, hKey⟩
    apply hFree _ hState
    have hSlot : slotOf (.top resolver id) "request" b = "request_id" :=
      slotOf_top_eq_iff.mpr ⟨rfl, hKey⟩
    exact List.mem_map.mpr ⟨b, hb, hSlot⟩
  · rintro hNot ⟨name, s⟩ hMem hTaken
    cases s with
    | parallel p =>
      obtain ⟨branches, next⟩ := p
      obtain ⟨b, hb, hSlot⟩ := List.mem_map.mp hTaken
      obtain ⟨rfl, hKey⟩ := slotOf_top_eq_iff.mp hSlot
      exact hNot ⟨branches, next, hMem, b, hb, hKey⟩
    | _ => simp [slotNames] at hTaken

theorem keepsRequestId_afterInit_iff {resolver : Resolver} {id : String} {w : Workflow}
    {p : StepProgram} (h : w.stepProgram (.top resolver id) = ⟨lifted, .ok p⟩) :
    KeepsRequestId p.afterInit ↔ ¬ w.TakesRequestId := by
  obtain ⟨blocks, rfl, hBlocks⟩ := statesSteps_blocks keptByEncoding_threads h
  have hStates :=
    Threads.flatten (hBlocks.imp fun e block hBlock => hBlock (Scope.clear_top resolver id))
  have hEnd : Threads [(mainEnd, .ret (.read (.var mainPayload)))] True := by
    apply Threads.of_bound
    · simp [everywhere_cons, everywhere_nil, Step.binds]
    · simp [everywhere_cons, everywhere_nil, CallsNothing, collectStep]
  have hAll := hStates.append hEnd
  rw [← slotNames_top_iff resolver id]
  constructor
  · exact fun hKeeps => (hAll.bound.mp hKeeps.bound).1
  · intro hFree
    refine ⟨hAll.bound.mpr ⟨hFree, trivial⟩, ?_, hAll.arguments, hAll.collected⟩
    exact fun list _ s _ => postsRequestId_toJson s.2

end StepProgram

/-- Each document of a workflow, its own and those of the bodies lifted from it, keeps the id of its
run if and only if no parallel state `request` of the workflow that it was made of has a branch
`id`. A document that keeps the id sends everything with the id that it was started with. -/
theorem Workflow.keepsRequestId_iff {resolver : Resolver} {id : String} {w : Workflow} {doc : Json}
    {g : StepProgram.Generator} {docs : List (String × Json)}
    (hDoc : (StepProgram.Generator.fresh resolver id).document w = (.ok doc, g))
    (hDocs : g.drain.1 = .ok docs) : ∀ d ∈ (id, doc) :: docs,
      ∃ site ∈ (id, w) :: w.liftedMaps resolver id, d.1 = site.1 ∧
        ∃ p, (site.2.stepProgram (.top resolver site.1)).result = .ok p ∧
          d.2 = StepProgram.mainDocument
            ((StepProgram.mainStart, StepProgram.initAction (StepProgram.ident site.2.root)) ::
              p.afterInit) ∧
          (p.afterInit.KeepsRequestId ↔ ¬ site.2.TakesRequestId) ∧
          (¬ site.2.TakesRequestId → ∀ (vars : Entries Json) (sent : List Json) (requestId : Json),
            vars.get? "request_id" = some requestId → p.afterInit.Sends vars sent →
              ∀ v ∈ sent, v.field? "request_id" = some requestId) := by
  intro d hd
  obtain ⟨site, hSite, hId, lifted, p, hProgram, hJson⟩ :=
    Workflow.programs_of_documents hDoc hDocs d hd
  have hIff := StepProgram.keepsRequestId_afterInit_iff hProgram
  refine ⟨site, hSite, hId, p, by rw [hProgram], hJson, hIff, ?_⟩
  intro hFree vars sent requestId hStart hSends
  exact (hIff.mpr hFree).sends hSends hStart

/-- The documents of a workflow with branches and of the bodies of two maps in it. -/
theorem Workflow.keepsRequestId_besideBranch :
    ∃ doc g docs,
      (StepProgram.Generator.fresh threeAddresses "flow").document (besideBranch "n") =
        (.ok doc, g) ∧
      g.drain.1 = .ok docs ∧ ∀ d ∈ ("flow", doc) :: docs, ∃ root p,
        d.2 = StepProgram.mainDocument
          ((StepProgram.mainStart, StepProgram.initAction root) :: StepProgram.afterInit p) ∧
        p.afterInit.KeepsRequestId := by
  obtain ⟨doc, g, docs, hDoc, hDocs⟩ : ∃ doc g docs,
      (StepProgram.Generator.fresh threeAddresses "flow").document (besideBranch "n") =
        (.ok doc, g) ∧ g.drain.1 = .ok docs := ⟨_, _, _, rfl, rfl⟩
  refine ⟨doc, g, docs, hDoc, hDocs, fun d hd => ?_⟩
  obtain ⟨site, hSite, -, p, -, hJson, hIff, -⟩ := Workflow.keepsRequestId_iff hDoc hDocs d hd
  refine ⟨_, p, hJson, hIff.mpr ?_⟩
  rw [liftedMaps_besideBranch] at hSite
  rintro ⟨branches, next, hState, -⟩
  rcases List.mem_cons.mp hSite with rfl | hSite
  · simp [besideBranch, mapOver] at hState
  · rcases List.mem_cons.mp hSite with rfl | hSite
    · simp [oneCall] at hState
    · rw [List.mem_singleton.mp hSite] at hState
      simp [oneCall] at hState

/-- A parallel state with one branch, and a task after it. -/
def oneBranch (state key : String) : Workflow :=
  ⟨state, [(state, .parallel ⟨[⟨some key, ⟨"t", [("t", .task ⟨"f", none⟩)]⟩⟩], some "u"⟩),
    ("u", .task ⟨"f", none⟩)]⟩

/-- The branch `id` of a state `request` has the variable with the id as its slot. -/
theorem Workflow.not_keepsRequestId_oneBranch :
    (oneBranch "request" "id").validate = .ok () ∧
      ∃ doc g docs p, (StepProgram.Generator.fresh branchAddresses "flow").document
          (oneBranch "request" "id") = (.ok doc, g) ∧ g.drain.1 = .ok docs ∧
        ((oneBranch "request" "id").stepProgram (.top branchAddresses "flow")).result = .ok p ∧
        doc = StepProgram.mainDocument
          ((StepProgram.mainStart, StepProgram.initAction "request") :: StepProgram.afterInit p) ∧
        ¬ p.afterInit.KeepsRequestId := by
  refine ⟨rfl, _, _, _, _, rfl, rfl, rfl, rfl, ?_⟩
  intro hKeeps
  have hFree := hKeeps.bound _ List.mem_cons_self _ List.mem_cons_self
  exact hFree (by decide)

end Orchestration
