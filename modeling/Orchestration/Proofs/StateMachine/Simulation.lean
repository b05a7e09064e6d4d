import Orchestration.Proofs.Binary64.Rounding
import Orchestration.Proofs.Run.Transitions
import Orchestration.Proofs.StateMachine.Encoding
import Orchestration.Proofs.StateMachine.Execution

/-!
# State machines do what workflows do

The machine of a workflow, executed with the activities behind their resources, comes to the payload
with which a run of the workflow ends well. The executor compares numbers as doubles and a run
compares whole numbers exactly, so the cases of all switches have to be such that this makes no
difference (`Workflow.CasesToldApart`).

* `rule?_holds?`, `chooseRule_eq_some`: tests of choices and cases of switches.
* `MapState.inputs_eq_ok`, `readAll_selector`: data that is put together.
* `State.ends_of_eval`: one state, given what holds of the workflows inside it.
* `Workflow.ends_of_eval_walk`: walks, by their steps.
* `Workflow.exists_machine_run`: whole runs.
-/

namespace Orchestration

open StateMachine

variable {answers : Answers} {resolver : Resolver} {service : Service}

/-! ## Choices -/

/-- If the constant of a case is a whole number, doubles tell it apart. -/
def Case.ToldApart (c : Case) : Prop :=
  ∀ k, c.val = .int k → Json.FitsSigned k → Binary64.TellsApart k

theorem comparatorHolds?_numeric (op : Comparison) (v val : Json) :
    comparatorHolds? ("Numeric" ++ op.name) v val = numbersHold? (some op) v val := by
  have hNe : "Numeric" ++ op.name ≠ "BooleanEquals" := by cases op <;> decide
  have hWord : "Numeric".toList.isPrefixOf ("Numeric" ++ op.name).toList = true := by
    cases op <;> decide
  have hOperator : operatorOf "Numeric" ("Numeric" ++ op.name) = some op := by
    cases op <;> decide
  rw [comparatorHolds?, if_neg hNe, if_pos hWord, hOperator]

theorem comparatorHolds?_string (op : Comparison) (v val : Json) :
    comparatorHolds? ("String" ++ op.name) v val = textsHold? (some op) v val := by
  have hNe : "String" ++ op.name ≠ "BooleanEquals" := by cases op <;> decide
  have hOther : ¬ "Numeric".toList.isPrefixOf ("String" ++ op.name).toList = true := by
    cases op <;> decide
  have hWord : "String".toList.isPrefixOf ("String" ++ op.name).toList = true := by
    cases op <;> decide
  have hOperator : operatorOf "String" ("String" ++ op.name) = some op := by
    cases op <;> decide
  rw [comparatorHolds?, if_neg hNe, if_neg hOther, if_pos hWord, hOperator]

/-- Numbers stand to a constant as their doubles do, if doubles tell it apart. -/
theorem orderNumbers?_eq_some {v val : Json} {o : Ordering}
    (hVal : ∀ k, val = .int k → Json.FitsSigned k → Binary64.TellsApart k)
    (h : Json.orderNumbers? v val = some o) :
    ∃ x y, v.toFloat? = some x ∧ val.toFloat? = some y ∧ x.compare y = o := by
  unfold Json.orderNumbers? at h
  split at h
  · rename_i a b
    refine ⟨_, _, rfl, rfl, ?_⟩
    split at h
    · rename_i hFits
      cases h
      exact hVal b rfl hFits.2 a hFits.1
    · cases h
      rfl
  · obtain ⟨x, hx, h⟩ := Option.bind_eq_some_iff.mp h
    obtain ⟨y, hy, h⟩ := Option.bind_eq_some_iff.mp h
    cases h
    exact ⟨x, y, hx, hy, rfl⟩

theorem numbersHold?_of_holds? {v val : Json} {op : Comparison} {b : Bool}
    (hNumber : val.toFloat?.isSome)
    (hVal : ∀ k, val = .int k → Json.FitsSigned k → Binary64.TellsApart k)
    (h : op.holds? v val = some b) : numbersHold? (some op) v val = some b := by
  have hOrder : v.order? val = Json.orderNumbers? v val := by
    cases v <;> cases val <;> first | rfl | cases hNumber
  unfold Comparison.holds? at h
  rw [hOrder] at h
  cases hNumbers : Json.orderNumbers? v val with
  | some o =>
    obtain ⟨x, y, hx, hy, rfl⟩ := orderNumbers?_eq_some hVal hNumbers
    rw [hNumbers] at h
    simpa [numbersHold?, hx, hy] using h
  | none =>
    have hNone : v.toFloat? = none := by
      cases hx : v.toFloat? with
      | none => rfl
      | some x =>
        obtain ⟨y, hy⟩ := Option.isSome_iff_exists.mp hNumber
        unfold Json.orderNumbers? at hNumbers
        split at hNumbers
        · split at hNumbers <;> cases hNumbers
        · simp [hx, hy] at hNumbers
    have hSame : v.same val = false := by
      cases v <;> cases val <;> first | rfl | (cases hNumber; done) | cases hNone
    rw [hNumbers, hSame] at h
    dsimp only at h
    split at h
    · rw [← h, numbersHold?, hNone]
    · cases h

theorem textsHold?_of_holds? {v : Json} {text : String} {op : Comparison} {b : Bool}
    (h : op.holds? v (.str text) = some b) : textsHold? (some op) v (.str text) = some b := by
  cases v with
  | str s => exact h
  | _ =>
    cases op <;> first | exact h | cases h

/-- Only a truth value equals a truth value. -/
theorem truth?_of_holds? {v : Json} {t b : Bool}
    (h : Comparison.equals.holds? v (.bool t) = some b) :
    (v.truth? == (Json.bool t).truth?) = b := by
  cases v with
  | bool s =>
    rw [← Option.some.inj h]
    cases s <;> cases t <;> rfl
  | _ => exact Option.some.inj h

/-- The test of a case holds if the case does. -/
theorem rule?_holds? {c : Case} {rule : Rule} {payload v : Json} {b : Bool}
    (hRule : rule? c = some rule) (hVar : Path.get payload c.var = .ok v) (hCase : c.ToldApart)
    (h : Comparison.holds? v c.op c.val = some b) : rule.holds? payload = some b := by
  obtain ⟨var, op, val, next⟩ := c
  have hRead : (Reference.path var).read payload = some v := Reference.read_path hVar
  have hCompare (comparator : String) (hComparator : comparator? op val = some comparator)
      (hHolds : comparatorHolds? comparator v val = some b)
      (hRule :
        (comparator? op val).map (fun comparator => Rule.compare (.path var) comparator val) =
        some rule) : rule.holds? payload = some b := by
    rw [hComparator] at hRule
    cases hRule
    rw [Rule.holds?, hRead]
    exact hHolds
  cases val with
  | null =>
    cases op with
    | equals =>
      cases hRule
      rw [Rule.holds?, hRead]
      cases v <;> exact h
    | _ => cases hRule
  | int n =>
    refine hCompare _ rfl ?_ hRule
    rw [comparatorHolds?_numeric, numbersHold?_of_holds? rfl hCase h]
  | float x =>
    refine hCompare _ rfl ?_ hRule
    rw [comparatorHolds?_numeric, numbersHold?_of_holds? rfl hCase h]
  | str text =>
    refine hCompare _ rfl ?_ hRule
    rw [comparatorHolds?_string, textsHold?_of_holds? h]
  | bool t =>
    cases op with
    | equals =>
      refine hCompare _ rfl ?_ hRule
      rw [comparatorHolds?, if_pos rfl, truth?_of_holds? h]
    | _ => cases hRule
  | arr items => cases hRule
  | obj fields => cases hRule

theorem choices_cons_eq_ok_iff {name : String} {c : Case} {rest : List Case} {cs : List Choice} :
    choices name (c :: rest) = .ok cs ↔
      ∃ rule, rule? c = some rule ∧ ∃ cs', choices name rest = .ok cs' ∧
        ⟨rule, c.next⟩ :: cs' = cs := by
  rw [choices]
  cases rule? c with
  | none => simp
  | some rule => simp only [bind_eq_ok_iff, pure_eq_ok_iff, Option.some.injEq, exists_eq_left']

/-- A choice goes on as a switch does, to another state where the switch ends. -/
theorem chooseRule_eq_some {name fallback : String} {default next : Option String}
    {cases : List Case} {cs : List Choice} {payload : Json} (hChoices : choices name cases = .ok cs)
    (hCases : ∀ c ∈ cases, c.ToldApart) (h : chooseCase payload default cases = .ok next) :
    chooseRule payload (default.getD fallback) cs = some (next.getD fallback) := by
  induction cases generalizing cs with
  | nil =>
    cases hChoices
    cases h
    rfl
  | cons c rest ih =>
    obtain ⟨rule, hRule, cs', hRest, rfl⟩ := choices_cons_eq_ok_iff.mp hChoices
    rw [chooseCase] at h
    cases hVar : Path.get payload c.var with
    | error e => simp [hVar] at h
    | ok v =>
      cases hHolds : Comparison.holds? v c.op c.val with
      | none => simp [hVar, hHolds] at h
      | some b =>
        have hTest := rule?_holds? hRule hVar (hCases c List.mem_cons_self) hHolds
        rw [chooseRule, hTest]
        cases b with
        | true =>
          simp only [hVar, hHolds, Except.ok.injEq] at h
          rw [← h]
          rfl
        | false =>
          simp only [hVar, hHolds] at h
          exact ih hRest (fun c' hc' => hCases c' (List.mem_cons_of_mem _ hc')) h

/-! ## Data -/

/-- Reading after writing a source is writing its value after reading. -/
theorem readAll_insert {α : Type} {read : α → Option Json} {es : Entries α} {vs : Entries Json}
    {name : String} {a : α} {v : Json} (h : readAll read es = some vs) (ha : read a = some v) :
    readAll read (es.insert name a) = some (vs.insert name v) := by
  induction es generalizing vs with
  | nil =>
    cases h
    simp [Entries.insert, readAll, ha]
  | cons e rest ih =>
    obtain ⟨k, a'⟩ := e
    obtain ⟨v', hv', h⟩ := Option.bind_eq_some_iff.mp h
    obtain ⟨us, hRest, h⟩ := Option.bind_eq_some_iff.mp h
    cases h
    rw [Entries.insert, Entries.insert]
    split
    · simp [readAll, ha, hRest]
    · simp [readAll, hv', ih hRest]

theorem readAll_insertAll {α : Type} {read : α → Option Json} {es writes : Entries α}
    {vs us : Entries Json} (h : readAll read es = some vs)
    (hWrites : readAll read writes = some us) :
    readAll read (es.insertAll writes) = some (vs.insertAll us) := by
  induction writes generalizing es vs us with
  | nil =>
    cases hWrites
    exact h
  | cons e rest ih =>
    obtain ⟨k, a⟩ := e
    obtain ⟨v, hv, hWrites⟩ := Option.bind_eq_some_iff.mp hWrites
    obtain ⟨us', hRest, hWrites⟩ := Option.bind_eq_some_iff.mp hWrites
    cases hWrites
    rw [Entries.insertAll, Entries.insertAll]
    exact ih (readAll_insert h hv) hRest

/-- What is read from sources at the paths of common parameters are the values of these. -/
theorem readAll_sharedParams {α : Type} {read : α → Option Json} {source : String → α}
    {payload : Json} (hRead : ∀ p v, Path.get payload p = .ok v → read (source p) = some v)
    {paths : List String} {shared : Entries Json} (h : sharedParams payload paths = .ok shared) :
    readAll read (paths.map fun p => (p, source p)) = some shared := by
  induction paths generalizing shared with
  | nil =>
    cases h
    rfl
  | cons p rest ih =>
    obtain ⟨v, more, hGet, hRest, rfl⟩ := sharedParams_cons_eq_ok_iff.mp h
    simp [readAll, hRead p v hGet, ih hRest]

/-- Reading a source for the element among those for the common parameters gives the fields
of the element's input. -/
theorem readAll_elementFields {α : Type} {read : α → Option Json} {own : α} {source : String → α}
    {payload element : Json} (hOwn : read own = some element)
    (hRead : ∀ p v, Path.get payload p = .ok v → read (source p) = some v) {paths : List String}
    {shared : Entries Json} (h : sharedParams payload paths = .ok shared) :
    readAll read (Entries.insertAll [("array_element", own)] (paths.map fun p => (p, source p))) =
      some (Entries.insertAll [("array_element", element)] shared) := by
  refine readAll_insertAll ?_ (readAll_sharedParams hRead h)
  simp [readAll, hOwn]

/-- Those sources are the one for the element and ones at paths. -/
theorem forall_mem_elementFields {α : Type} {P : String × α → Prop} {own : α} {source : String → α}
    {paths : List String} (hOwn : P ("array_element", own))
    (hEach : ∀ p ∈ paths, P (p, source p)) :
    ∀ e ∈ Entries.insertAll [("array_element", own)] (paths.map fun p => (p, source p)), P e := by
  intro e he
  rcases List.mem_append.mp ((Entries.insertAll_subperm _ _).subset he) with hFirst | hShared
  · cases List.mem_singleton.mp hFirst
    exact hOwn
  · obtain ⟨p, hp, rfl⟩ := List.mem_map.mp hShared
    exact hEach p hp

theorem nodup_keys_elementFields (shared : Entries Json) (element : Json) :
    (Entries.insertAll [("array_element", element)] shared).keys.Nodup :=
  Entries.nodup_keys_insertAll (by simp) shared

theorem parameters_eq {m : MapState} (hSome : m.paramPaths ≠ []) :
    parameters m = Entries.insertAll [("array_element", .element)]
      (m.paramPaths.map fun p => (p, ParameterSource.place (.path p))) := by
  unfold parameters
  cases hPaths : m.paramPaths with
  | nil => exact absurd hPaths hSome
  | cons p rest => rfl

theorem iterationInput_parameters {m : MapState} {payload : Json} {shared : Entries Json}
    (hSome : m.paramPaths ≠ []) (h : sharedParams payload m.paramPaths = .ok shared)
    (element : Json) :
    iterationInput payload (parameters m) element = some (elementInput shared element) := by
  have hRead : readAll (ParameterSource.read payload element) (parameters m) =
      some (Entries.insertAll [("array_element", element)] shared) := by
    have hPlace : ∀ p v, Path.get payload p = .ok v →
        (ParameterSource.place (.path p)).read payload element = some v :=
      fun p v => Reference.read_path
    have hElement : ParameterSource.read payload element .element = some element := rfl
    rw [parameters_eq hSome]
    exact readAll_elementFields hElement hPlace h
  unfold iterationInput
  split
  · rename_i hEmpty
    rw [hEmpty] at hRead
    exact absurd (Option.some.inj hRead).symm (Entries.insertAll_ne_nil (by simp) shared)
  · rw [hRead, Option.map_some, Entries.ofWrites_of_nodup (nodup_keys_elementFields shared element)]
    rfl

/-- The inputs of a map are those of the iterations of its state. -/
theorem MapState.inputs_eq_ok {m : MapState} {payload : Json} {inputs : List Json}
    (h : m.inputs payload = .ok inputs) :
    ∃ v elements, Path.get payload m.array = .ok v ∧ v.items? = some elements ∧
      elements.mapM (iterationInput payload (parameters m)) = some inputs := by
  obtain ⟨elements, hGet, hEach⟩ := MapState.inputs_eq_ok_iff.mp h
  refine ⟨.arr elements, elements, hGet, rfl, mapM_eq_some_iff.mpr ?_⟩
  rcases hEach with ⟨hPaths, rfl⟩ | ⟨hSome, shared, hShared, rfl⟩
  · have hNone : parameters m = [] := by
      rw [parameters, hPaths]
    rw [hNone]
    exact List.forall₂_same.mpr fun element _ => rfl
  · rw [List.forall₂_map_right_iff]
    exact List.forall₂_same.mpr fun element _ => iterationInput_parameters hSome hShared element

/-- The results of branches, from those of all their strands. -/
def branchResults : List BranchPlan → List Json → List Json
  | [], _ => []
  | plan :: rest, results =>
    plan.result (results.take plan.strands.length) ::
      branchResults rest (results.drop plan.strands.length)

/-- The selector finds the result of each branch under its key. -/
theorem readAll_selector {results : List Json} {plans : List BranchPlan} :
    ∀ {branches : List Branch} {acc : Entries Reference} {merged : Entries Json} {i : Nat}
      {outs : List Json}, plans.map BranchPlan.key = branches.map Branch.key →
      readAll (Reference.read (.arr results)) acc = some merged →
      results.drop i = branchResults plans outs →
      readAll (Reference.read (.arr results)) (selector acc i branches) =
        some (mergeBranches merged plans outs) := by
  induction plans with
  | nil =>
    intro branches acc merged i outs hKeys hAcc _
    cases branches with
    | nil => exact hAcc
    | cons b rest => cases hKeys
  | cons plan rest ih =>
    intro branches acc merged i outs hKeys hAcc hDrop
    cases branches with
    | nil => cases hKeys
    | cons b bs =>
      obtain ⟨hKey, hKeys⟩ := List.cons.inj hKeys
      rw [branchResults] at hDrop
      have hAt : results[i]? = some (plan.result (outs.take plan.strands.length)) := by
        have hHead := congrArg (fun l : List Json => l[0]?) hDrop
        simpa using hHead
      have hTail : results.drop (i + 1) = branchResults rest (outs.drop plan.strands.length) := by
        rw [← List.drop_drop, hDrop, List.drop_one, List.tail_cons]
      rw [selector, mergeBranches, hKey]
      refine ih hKeys (readAll_insert hAcc ?_) hTail
      simp [Reference.read, Json.items?, hAt]

theorem nodup_keys_mergeBranches {plans : List BranchPlan} {merged : Entries Json}
    {results : List Json} (h : merged.keys.Nodup) :
    (mergeBranches merged plans results).keys.Nodup := by
  induction plans generalizing merged results with
  | nil => exact h
  | cons plan rest ih => exact ih (Entries.nodup_keys_insert h _ _)

/-! ## States -/

section States

variable {site : Site} {limits : Limits}

/-- What a workflow inside the state evaluates to, its machines come to. -/
def Site.Simulated (answers : Answers) (resolver : Resolver) (service : Service) (site : Site)
    (w : Workflow) : Prop :=
  ∀ (m : Machine) input o cs, m.Encodes resolver w →
    (site.enter w input).eval answers = some (o, cs) → m.Ends service m.startAt input o.payload

theorem Machine.single_ends (hService : service.Serves resolver answers) {activity address : String}
    {input v : Json} (hAddress : resolver.resolve activity = some address)
    (hAnswer : answers activity input = .ok v) :
    (Machine.single activity address).Ends service activity input v := by
  have hState : Entries.get? activity (Machine.single activity address).states =
      some (.task address none) := by
    simp [Machine.single, Entries.get?]
  exact .of_state hState (.task (hService _ _ _ _ hAddress hAnswer)) rfl

/-- What the body of a map evaluates to, its machine comes to. -/
theorem Machine.EncodesBody.ends (hService : service.Serves resolver answers) {iterator : Machine}
    {body : MapBody} (hIterator : iterator.EncodesBody resolver body)
    (hSite : ∀ w, body = .workflow w → site.Simulated answers resolver service w) {input : Json}
    {o : Outcome} {cs : List Call} (hEval : (body.process site input).eval answers = some (o, cs)) :
    iterator.Ends service iterator.startAt input o.payload := by
  cases body with
  | activity name =>
    obtain ⟨address, hAddress, rfl⟩ := hIterator
    obtain ⟨v, hv, rfl, rfl⟩ := Site.eval_dispatch_eq_some.mp hEval
    exact Machine.single_ends hService hAddress hv
  | workflow w => exact hSite w rfl iterator input o cs hIterator hEval

/-- The iterations of a map come to the results of its strands. -/
theorem forall₂_ends_of_evalAll {iterator : Machine} {f : Json → Process} {inputs : List Json}
    {os : List Outcome} {cs : List Call}
    (hIterator : ∀ input o ds, (f input).eval answers = some (o, ds) →
      iterator.Ends service iterator.startAt input o.payload)
    (hEval : evalAll answers (inputs.map f) = some (os, cs)) :
    List.Forall₂ (iterator.Ends service iterator.startAt) inputs (os.map Outcome.payload) := by
  have hAll := forall₂_of_evalAll hEval
  rw [List.forall₂_map_left_iff] at hAll
  rw [List.forall₂_map_right_iff]
  exact hAll.imp fun input o ⟨ds, hDs⟩ => hIterator input o ds hDs

/-- The state of a map goes on with the results at the place for them. -/
theorem mapState_goes {m : MapState} {iterator : Machine} {result : ResultPlace}
    {next : Option String} {payload data' : Json} {inputs results : List Json}
    (hInputs : m.inputs payload = .ok inputs)
    (hResults : List.Forall₂ (iterator.Ends service iterator.startAt) inputs results)
    (hStore : result.store payload (.arr results) = some data') :
    (mapState m iterator result next).Goes service payload next data' := by
  obtain ⟨v, elements, hGet, hItems, hIterations⟩ := MapState.inputs_eq_ok hInputs
  exact .map (Reference.read_path hGet) hItems hIterations hResults hStore

/-- The machine of a branch that starts with a map gives a single result bare
and others as a list. -/
theorem mapBranch_ends {root : String} {m : MapState} {iterator : Machine} {payload : Json}
    {inputs results : List Json} (key : String) (strands : List Process)
    (hInputs : m.inputs payload = .ok inputs)
    (hResults : List.Forall₂ (iterator.Ends service iterator.startAt) inputs results) :
    (mapBranch root m iterator).Ends service root payload
      (BranchPlan.result ⟨key, true, strands⟩ results) := by
  have hNodup := nodup_keys_mapBranch root m iterator
  have hState {name : String} {s : MachineState}
      (h : (name, s) ∈ (mapBranch root m iterator).states) :
      Entries.get? name (mapBranch root m iterator).states = some s :=
    Entries.get?_of_mem h hNodup
  refine .of_state (hState (by simp [mapBranch]; exact .inl rfl))
    (mapState_goes hInputs hResults rfl) ?_
  by_cases hOne : ∃ r, results = [r]
  · obtain ⟨r, rfl⟩ := hOne
    have hShape : chooseRule (.arr [r]) (root ++ "_list") [⟨.oneItem, root ++ "_single"⟩] =
        some (root ++ "_single") := rfl
    refine .of_state (hState (by simp [mapBranch])) (.choice hShape) ?_
    exact .of_state (hState (by simp [mapBranch]; rfl)) (.pass rfl) rfl
  · have hResult : BranchPlan.result ⟨key, true, strands⟩ results = .arr results := by
      unfold BranchPlan.result
      split
      · rename_i heq
        cases heq
      · rename_i heq
        cases heq
      · exact absurd ⟨_, rfl⟩ hOne
      · rfl
    have hShape : chooseRule (.arr results) (root ++ "_list") [⟨.oneItem, root ++ "_single"⟩] =
        some (root ++ "_list") := by
      rcases results with _ | ⟨r, _ | ⟨r', rest⟩⟩
      · rfl
      · exact absurd ⟨r, rfl⟩ hOne
      · rfl
    rw [hResult]
    refine .of_state (hState (by simp [mapBranch])) (.choice hShape) ?_
    exact .of_state (hState (by simp [mapBranch])) (.succeed _) rfl

/-- What the strands of a branch evaluate to, put together, its machine comes to. -/
theorem Machine.EncodesBranch.ends (hService : service.Serves resolver answers) {machine : Machine}
    {b : Branch} (h : machine.EncodesBranch resolver b)
    (hWorkflow : site.Simulated answers resolver service b.workflow)
    (hElement : ∀ w, b.elementWorkflow = some w → site.Simulated answers resolver service w)
    {payload : Json} {plan : BranchPlan} {os : List Outcome} {cs : List Call}
    (hPlan : b.plan site payload = .ok plan)
    (hEval : evalAll answers plan.strands = some (os, cs)) :
    machine.Ends service machine.startAt payload (plan.result (os.map Outcome.payload)) := by
  unfold Branch.plan at hPlan
  rcases h with ⟨t, hRoot, hEncodes⟩ | ⟨m, activity, iterator, hRoot, hBody, rfl, hIterator⟩
  · rw [hRoot] at hPlan
    cases hPlan
    obtain ⟨o, os', ds, es, hStrand, hNone, rfl, -⟩ := evalAll_cons_eq_some.mp hEval
    cases hNone
    change machine.Ends service machine.startAt payload o.payload
    cases hNext : t.next with
    | some next =>
      rw [hNext] at hStrand
      exact hWorkflow machine payload o ds hEncodes hStrand
    | none =>
      rw [hNext] at hStrand
      obtain ⟨v, hv, rfl, -⟩ := Site.eval_dispatch_eq_some.mp hStrand
      obtain ⟨fs, hFragments, hAt⟩ := hEncodes.states _ _ hRoot
      rw [fragments] at hFragments
      obtain ⟨address, hAddress, rfl⟩ := taskFragments_eq_ok_iff.mp hFragments
      rw [hEncodes.startAt]
      refine .of_state (hAt _ _ List.mem_cons_self) (.task (hService _ _ _ _ hAddress hv)) ?_
      rw [hNext]
      rfl
  · rw [hRoot] at hPlan
    simp only [hBody, bind_eq_ok_iff, pure_eq_ok_iff] at hPlan
    obtain ⟨inputs, hInputs, rfl⟩ := hPlan
    refine mapBranch_ends b.key _ hInputs
      (forall₂_ends_of_evalAll (fun input o ds hStrand => ?_) hEval)
    cases hSome : b.elementWorkflow with
    | some w =>
      rw [hSome] at hIterator hStrand
      exact hElement w hSome iterator input o ds hIterator hStrand
    | none =>
      rw [hSome] at hIterator hStrand
      have hBodyEval : ((MapBody.activity activity).process site input).eval answers =
          some (o, ds) :=
        hStrand
      exact hIterator.ends hService (by rintro w ⟨⟩) hBodyEval

/-- The machines of branches come to the results of the branches. -/
theorem forall₂_ends_of_branchPlans (hService : service.Serves resolver answers) {payload : Json}
    {machines : List Machine} {branches : List Branch}
    (h : List.Forall₂ (Machine.EncodesBranch resolver) machines branches) :
    ∀ {plans : List BranchPlan} {os : List Outcome} {cs : List Call},
      (∀ b ∈ branches, site.Simulated answers resolver service b.workflow ∧
        ∀ w, b.elementWorkflow = some w → site.Simulated answers resolver service w) →
      branchPlans site payload branches = .ok plans →
      evalAll answers (plans.flatMap BranchPlan.strands) = some (os, cs) →
      plans.map BranchPlan.key = branches.map Branch.key ∧
        List.Forall₂ (fun m v => m.Ends service m.startAt payload v) machines
          (branchResults plans (os.map Outcome.payload)) := by
  induction h with
  | nil =>
    intro plans os cs _ hPlans _
    cases hPlans
    exact ⟨rfl, List.Forall₂.nil⟩
  | @cons machine b machines rest hHead hRest ih =>
    intro plans os cs hSite hPlans hEval
    obtain ⟨plan, plans, hPlan, hLater, rfl⟩ := branchPlans_cons_eq_ok.mp hPlans
    obtain ⟨os', os'', ds, es, hFirst, hSecond, rfl⟩ := evalAll_append_eq_some hEval
    obtain ⟨hWorkflow, hElement⟩ := hSite b List.mem_cons_self
    obtain ⟨hKeys, hEnds⟩ := ih (fun c hc => hSite c (List.mem_cons_of_mem _ hc)) hLater hSecond
    have hLength : (os'.map Outcome.payload).length = plan.strands.length := by
      rw [List.length_map, (forall₂_of_evalAll hFirst).length_eq]
    refine ⟨?_, ?_⟩
    · rw [List.map_cons, List.map_cons, Branch.plan_key hPlan, hKeys]
    · rw [branchResults, List.map_append, List.take_left' hLength, List.drop_left' hLength]
      exact List.Forall₂.cons (hHead.ends hService hWorkflow hElement hPlan hFirst) hEnds

/-- The tasks of a repeat from some call on, and what comes after them. -/
theorem chain_ends (hService : service.Serves resolver answers) {m : Machine} {name : String}
    {r : RepeatState}
    (hTasks : ∀ i < r.count, ∃ address, resolver.resolve r.activity = some address ∧
      Entries.get? (unrolledName name i) m.states =
        some (.task address (r.unrolledTask name i).next))
    (n : Nat) :
    ∀ {i : Nat} {payload v : Json} {o : Outcome} {cs : List Call}, i + (n + 1) = r.count →
      (site.repeatCalls r.activity (n + 1) payload).eval answers = some (o, cs) →
      m.Continues service r.next o.payload v → m.Ends service (unrolledName name i) payload v := by
  induction n with
  | zero =>
    intro i payload v o cs hCount hEval hRest
    obtain ⟨address, hAddress, hState⟩ := hTasks i (by omega)
    obtain ⟨u, ds, hu, hLast, -⟩ := Site.eval_repeatCalls_succ.mp hEval
    cases hLast
    refine .of_state hState (.task (hService _ _ _ _ hAddress hu)) ?_
    rw [RepeatState.unrolledTask, if_neg (by omega)]
    exact hRest
  | succ n ih =>
    intro i payload v o cs hCount hEval hRest
    obtain ⟨address, hAddress, hState⟩ := hTasks i (by omega)
    obtain ⟨u, ds, hu, hLater, -⟩ := Site.eval_repeatCalls_succ.mp hEval
    refine .of_state hState (.task (hService _ _ _ _ hAddress hu)) ?_
    rw [RepeatState.unrolledTask, if_pos (by omega)]
    exact ih (by omega) hLater hRest

/-- If the state is a switch, doubles tell the whole numbers of its cases apart. -/
def State.CasesToldApart (s : State) : Prop :=
  ∀ sw, s = .switch sw → ∀ c ∈ sw.cases, c.ToldApart

/-- The calls of a loop succeed one by one, and the payload stays as it is. -/
theorem forall₂_of_eval_loopCalls {activity : String} {payload : Json} {elements : List Json}
    {o : Outcome} {cs : List Call}
    (h : (site.loopCalls activity payload elements).eval answers = some (o, cs)) :
    o.payload = payload ∧
      ∃ vs, List.Forall₂ (fun e v => answers activity e = .ok v) elements vs := by
  induction elements generalizing cs with
  | nil =>
    cases h
    exact ⟨rfl, [], List.Forall₂.nil⟩
  | cons element rest ih =>
    obtain ⟨v, ds, hv, hRest, -⟩ := Site.eval_loopCalls_cons.mp h
    obtain ⟨hPayload, vs, hVs⟩ := ih hRest
    exact ⟨hPayload, v :: vs, List.Forall₂.cons hv hVs⟩

theorem chooseCase_eq_none {payload : Json} {default : Option String} {cases : List Case}
    (h : chooseCase payload default cases = .ok none) : default = none := by
  induction cases with
  | nil => exact Except.ok.inj h
  | cons c rest ih =>
    rw [chooseCase] at h
    split at h
    · cases h
    · split at h
      · cases h
      · cases h
      · exact ih h

/-- A switch without a default goes on to a state that ends the machine. -/
theorem SwitchState.ends_of_choose {m : Machine} {name : String} {sw : SwitchState}
    {fs : List (String × MachineState)} {payload v : Json} {next : Option String}
    (hFragments : switchFragments name sw = .ok fs)
    (hAt : ∀ k ms, (k, ms) ∈ fs → Entries.get? k m.states = some ms)
    (hCases : ∀ c ∈ sw.cases, c.ToldApart) (hNext : sw.choose payload = .ok next)
    (hRest : m.Continues service next payload v) : m.Ends service name payload v := by
  rw [switchFragments] at hFragments
  obtain ⟨cs, hChoices, hFragments⟩ := bind_eq_ok_iff.mp hFragments
  have hChoose := @chooseRule_eq_some _ (noMatchName name) _ _ _ _ _ hChoices hCases hNext
  cases hDefault : sw.default with
  | some default =>
    rw [hDefault] at hFragments hChoose
    cases pure_eq_ok_iff.mp hFragments
    cases next with
    | none =>
      rw [chooseCase_eq_none hNext] at hDefault
      cases hDefault
    | some next => exact .of_state (hAt _ _ List.mem_cons_self) (.choice hChoose) hRest
  | none =>
    rw [hDefault] at hFragments hChoose
    cases pure_eq_ok_iff.mp hFragments
    refine .of_state (hAt _ _ List.mem_cons_self) (.choice hChoose) ?_
    cases next with
    | none =>
      refine .of_state (hAt _ _ (List.mem_cons_of_mem _ List.mem_cons_self)) (.succeed payload) ?_
      exact hRest
    | some next => exact hRest

theorem MapState.ends_of_eval (hService : service.Serves resolver answers) {m : Machine}
    {name : String} {mp : MapState} {fs : List (String × MachineState)} {payload v : Json}
    {o : Outcome} {cs : List Call} (hFragments : fragments resolver name (.map mp) = .ok fs)
    (hAt : ∀ k ms, (k, ms) ∈ fs → Entries.get? k m.states = some ms)
    (hSite : ∀ w, mp.body = .workflow w → site.Simulated answers resolver service w)
    (hEval : (mp.transition site limits payload).eval answers = some (o, cs))
    (hRest : m.Continues service mp.next o.payload v) : m.Ends service name payload v := by
  obtain ⟨iterator, hIterator, rfl⟩ := fragments_map_eq_ok hFragments
  obtain ⟨inputs, os, u, hInputs, hAll, hSet, rfl⟩ := MapState.eval_transition_eq_some.mp hEval
  have hResults := forall₂_ends_of_evalAll (fun input o ds hStrand =>
    hIterator.ends hService hSite hStrand) hAll
  refine .of_state (hAt _ _ List.mem_cons_self) (mapState_goes hInputs hResults ?_) hRest
  rw [ResultPlace.store, hSet]
  rfl

theorem RepeatState.ends_of_eval (hService : service.Serves resolver answers) {m : Machine}
    {name : String} {r : RepeatState} {fs : List (String × MachineState)} {payload v : Json}
    {o : Outcome} {cs : List Call} (hFragments : fragments resolver name (.repeat r) = .ok fs)
    (hAt : ∀ k ms, (k, ms) ∈ fs → Entries.get? k m.states = some ms) (hCount : r.count ≠ 0)
    (hEval : ((State.repeat r).transition site limits payload).eval answers = some (o, cs))
    (hRest : m.Continues service r.next o.payload v) : m.Ends service name payload v := by
  obtain ⟨n, hCount⟩ := Nat.exists_eq_succ_of_ne_zero hCount
  rw [fragments] at hFragments
  have hTasks : ∀ i < r.count, ∃ address, resolver.resolve r.activity = some address ∧
      Entries.get? (unrolledName name i) m.states =
        some (.task address (r.unrolledTask name i).next) := by
    intro i hi
    have hMem : (unrolledName name i, r.unrolledTask name i) ∈ r.unrolled name :=
      List.mem_map_of_mem (f := fun i => (unrolledName name i, r.unrolledTask name i))
        (List.mem_range.mpr hi)
    obtain ⟨address, hAddress, hIn⟩ := chainFragments_eq_ok hFragments _ _ hMem
    exact ⟨address, hAddress, hAt _ _ hIn⟩
  rw [State.transition, hCount] at hEval
  exact chain_ends hService hTasks n (i := 0) (by omega) hEval hRest

theorem LoopState.ends_of_eval (hService : service.Serves resolver answers) {m : Machine}
    {name : String} {l : LoopState} {fs : List (String × MachineState)} {payload v : Json}
    {o : Outcome} {cs : List Call} (hFragments : fragments resolver name (.loop l) = .ok fs)
    (hAt : ∀ k ms, (k, ms) ∈ fs → Entries.get? k m.states = some ms)
    (hEval : ((State.loop l).transition site limits payload).eval answers = some (o, cs))
    (hRest : m.Continues service l.next o.payload v) : m.Ends service name payload v := by
  obtain ⟨address, hAddress, rfl⟩ := loopFragments_eq_ok_iff.mp hFragments
  rw [State.transition] at hEval
  cases hArray : arrayAt payload l.array with
  | error e => simp [hArray, Site.fail] at hEval
  | ok elements =>
    rw [hArray] at hEval
    obtain ⟨hPayload, vs, hVs⟩ := forall₂_of_eval_loopCalls hEval
    have hGet := arrayAt_eq_ok_iff.mp hArray
    rw [hPayload] at hRest
    have hResults : List.Forall₂ ((Machine.single l.activity address).Ends service l.activity)
        elements vs :=
      hVs.imp fun element v hv => Machine.single_ends hService hAddress hv
    -- The machine's map keeps no results, and the payload passes it unchanged.
    refine .of_state (hAt _ _ List.mem_cons_self)
      (.map (Reference.read_path hGet) rfl ?_ hResults rfl) hRest
    exact mapM_eq_some_iff.mpr (List.forall₂_same.mpr fun element _ => rfl)

theorem ParallelState.ends_of_eval (hService : service.Serves resolver answers) {m : Machine}
    {name : String} {p : ParallelState} {fs : List (String × MachineState)} {payload v : Json}
    {o : Outcome} {cs : List Call} (hFragments : fragments resolver name (.parallel p) = .ok fs)
    (hAt : ∀ k ms, (k, ms) ∈ fs → Entries.get? k m.states = some ms)
    (hSite : ∀ b ∈ p.branches, site.Simulated answers resolver service b.workflow ∧
      ∀ w, b.elementWorkflow = some w → site.Simulated answers resolver service w)
    (hEval : (p.transition site payload).eval answers = some (o, cs))
    (hRest : m.Continues service p.next o.payload v) : m.Ends service name payload v := by
  obtain ⟨machines, hMachines, rfl⟩ := fragments_parallel_eq_ok hFragments
  obtain ⟨plans, os, hPlans, hAll, rfl⟩ := ParallelState.eval_transition_eq_some.mp hEval
  obtain ⟨hKeys, hEnds⟩ := forall₂_ends_of_branchPlans hService hMachines hSite hPlans hAll
  have hSelect := readAll_selector (i := 0) hKeys
    (rfl : readAll (Reference.read (.arr (branchResults plans (os.map Outcome.payload)))) [] =
      some [])
    rfl
  refine .of_state (hAt _ _ List.mem_cons_self) (.parallel hEnds hSelect) ?_
  -- The selector's fields are distinct, so writing them one by one gives the merged object.
  rw [Entries.ofWrites_of_nodup (nodup_keys_mergeBranches (by simp))]
  exact hRest

/-- What a state does and what comes after it, its fragments do. -/
theorem State.ends_of_eval (hService : service.Serves resolver answers) {m : Machine}
    {name : String} {s : State} {fs : List (String × MachineState)} {payload v : Json}
    {next : Option String} {o : Outcome} {cs : List Call}
    (hFragments : fragments resolver name s = .ok fs)
    (hAt : ∀ k ms, (k, ms) ∈ fs → Entries.get? k m.states = some ms)
    (hValid : s.validate name = .ok ())
    (hSite : ∀ w, s.Enters w → site.Simulated answers resolver service w)
    (hCases : s.CasesToldApart) (hNext : s.successor payload = .ok next)
    (hEval : (s.transition site limits payload).eval answers = some (o, cs))
    (hRest : m.Continues service next o.payload v) : m.Ends service name payload v := by
  cases s with
  | task t =>
    cases hNext
    obtain ⟨address, hAddress, rfl⟩ := taskFragments_eq_ok_iff.mp hFragments
    obtain ⟨u, ds, hu, hLast, -⟩ := Site.eval_repeatCalls_succ.mp hEval
    cases hLast
    exact .of_state (hAt _ _ List.mem_cons_self) (.task (hService _ _ _ _ hAddress hu)) hRest
  | switch sw =>
    cases hEval
    exact sw.ends_of_choose hFragments hAt (hCases sw rfl) hNext hRest
  | map mp =>
    cases hNext
    exact MapState.ends_of_eval hService hFragments hAt (fun w hBody => hSite w (.body hBody))
      hEval hRest
  | «repeat» r =>
    cases hNext
    exact RepeatState.ends_of_eval hService hFragments hAt
      (State.validate_repeat_eq_ok_iff.mp hValid) hEval hRest
  | loop l =>
    cases hNext
    exact LoopState.ends_of_eval hService hFragments hAt hEval hRest
  | parallel p =>
    cases hNext
    refine ParallelState.ends_of_eval hService hFragments hAt (fun b hb => ?_) hEval hRest
    exact ⟨hSite _ (.branch hb), fun w hw => hSite w (.element hb hw)⟩

/-! ## Walks and runs -/

/-- At every level doubles tell the whole numbers in cases of switches apart. -/
def Workflow.CasesToldApart (w : Workflow) : Prop :=
  ∀ v, w.Reaches v → ∀ name s, (name, s) ∈ v.states → s.CasesToldApart

/-- What a walk evaluates to, a machine that encodes the workflow comes to
from the same state on. -/
theorem Workflow.ends_of_eval_walk (hService : service.Serves resolver answers) (fuel : Nat) :
    ∀ {ctx : Context} {w : Workflow} {m : Machine} {name : String} {payload : Json}
      {visited : List String} {o : Outcome} {cs : List Call}, m.Encodes resolver w →
      w.validate = .ok () → w.CasesToldApart →
      (w.walk limits fuel ctx name payload visited).eval answers = some (o, cs) →
      m.Ends service name payload o.payload := by
  -- A body or an element workflow is walked by a machine of its own, hence any `w` and `m` below.
  induction fuel with
  | zero =>
    intro ctx w m name payload visited o cs _ _ _ hEval
    cases hEval
  | succ fuel ih =>
    intro ctx w m name payload visited o cs hEncodes hValid hCases hEval
    obtain ⟨s, next, o', ds, es, hState, hNext, hStep, hRest, -⟩ :=
      Workflow.eval_walk_eq_some.mp hEval
    obtain ⟨fs, hFragments, hAt⟩ := hEncodes.states name s hState
    have hMem := Workflow.mem_states hState
    have hInside := ((Workflow.validate_eq_ok_iff.mp hValid).2 name s hMem).2
    refine State.ends_of_eval hService hFragments hAt hInside ?_
      (hCases w (.refl w) name s hMem) hNext hStep ?_
    · intro inner hEnters m' input o'' es' hInner hStrand
      change (ctx.enter limits fuel inner input).eval answers = some (o'', es') at hStrand
      unfold Context.enter at hStrand
      split at hStrand
      · cases hStrand
      · have hLevel : w.Reaches inner := .enter (.refl w) hMem hEnters
        rw [hInner.startAt]
        exact ih hInner (hEnters.validate hInside) (fun v hv => hCases v (hLevel.trans hv)) hStrand
    · cases next with
      | none =>
        rw [hRest.1]
        rfl
      | some next => exact ih hEncodes hValid hCases hRest

end States

/-- If a run of a valid workflow ends well, its machine comes to the same payload, whatever the
calls took and however many were under way. -/
theorem Workflow.exists_machine_run {w : Workflow} {m : Machine} {limits : Limits} {caller : Caller}
    {fuel : Nat} {requestId : String} {payload : Json} {e : Execution} {o : Outcome}
    (hValid : w.validate = .ok ()) (hMachine : w.machine resolver = .ok m)
    (hResolver : resolver.Distinct) (hCases : w.CasesToldApart) (hCaller : caller.AnswersBy answers)
    (hRun : w.run limits caller fuel requestId payload = some e) (hOk : e.result = .ok o) :
    ∃ n, m.run (resolver.serve answers) n payload = some o.payload := by
  obtain ⟨cs, hEval⟩ := Workflow.eval_of_run hCaller hRun hOk
  have hEncodes := Workflow.encodes_machine hMachine
  have hEnds := Workflow.ends_of_eval_walk (resolver.serves_serve answers hResolver) fuel hEncodes
    hValid hCases hEval
  rw [← hEncodes.startAt] at hEnds
  exact hEnds

end Orchestration
