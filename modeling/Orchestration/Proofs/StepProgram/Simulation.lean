import Orchestration.Proofs.Run.Order
import Orchestration.Proofs.StepProgram.Encoding
import Orchestration.Proofs.StepProgram.Execution
import Orchestration.Proofs.Workflow.Levels

/-!
# Step programs do what sequential workflows do

The steps of a workflow of tasks, switches, repeats and loops, executed with the activities
behind their addresses, return the payload with which a run of the workflow ends well, and post
the calls of the run, in order.

* `Deployment.Makes` says what a program that holds a payload does from the
  first step of a state on.
* `Deployment.Hosts.makes_task`, `…makes_switch`, `…makes_repeat`, `…makes_loop`: one state and what
  comes after it.
* `Workflow.makes_of_eval_walk`: walks, by their steps.
* `Workflow.exists_program_run`: whole runs.
-/

namespace Orchestration

open StepProgram

variable {answers : Answers}

/-! ## Posts and payloads -/

/-- The service that is sent payloads in the bodies of posts. -/
def Service.unpacking (service : Service) : Service := fun url body =>
  (body.field? "payload").bind (service url)

/-- The posts are those of the calls, each to the address of its activity and
with the id of the run. -/
def PostsOf (resolver : Resolver) (requestId : String) (calls : List Call)
    (posts : List HttpPost) : Prop :=
  List.Forall₂ (fun call post => resolver.resolve call.1 = some post.url ∧
    post.body = messageOf (.str requestId) call.2) calls posts

theorem PostsOf.single {resolver : Resolver} {activity url : String} (requestId : String)
    (payload : Json) (hUrl : resolver.resolve activity = some url) :
    PostsOf resolver requestId [(activity, payload)] [⟨url, messageOf (.str requestId) payload⟩] :=
  .cons ⟨hUrl, rfl⟩ .nil

/-- The variables of the document hold the id of the run and this payload. -/
structure ProgramState.Holds (s : ProgramState) (requestId : String) (payload : Json) : Prop where
  payload : s.vars.get? mainPayload = some payload
  requestId : s.vars.get? requestIdVar = some (.str requestId)

namespace ProgramState.Holds

variable {s : ProgramState} {requestId : String} {payload : Json}

theorem assign_payload (h : s.Holds requestId payload) (v : Json) :
    (s.assign mainPayload v).Holds requestId v :=
  ⟨s.get?_assign_self _ v, (s.get?_assign_of_ne (by decide) v).trans h.requestId⟩

/-- Other variables do not change what the document holds. -/
theorem assign (h : s.Holds requestId payload) {name : String} (hPayload : mainPayload ≠ name)
    (hId : requestIdVar ≠ name) (v : Json) : (s.assign name v).Holds requestId payload :=
  ⟨(s.get?_assign_of_ne hPayload v).trans h.payload, (s.get?_assign_of_ne hId v).trans h.requestId⟩

theorem send (h : s.Holds requestId payload) (post : HttpPost) :
    (s.send post).Holds requestId payload := ⟨h.payload, h.requestId⟩

theorem read (h : s.Holds requestId payload) {path : String} {v : Json}
    (hPath : Path.get payload path = .ok v) :
    (Place.field mainPayload path).read s.vars = some v := by
  simp [Place.read, h.payload, hPath, Except.toOption]

end ProgramState.Holds

/-- A name with such an ending is not a known one that ends otherwise. -/
theorem ne_ident_append {known name ending : String}
    (h : known.toList.getLast? ≠ (ident ending).toList.getLast?) (hEnding : ident ending ≠ "") :
    known ≠ ident (name ++ ending) := by
  rintro rfl
  apply h
  rw [ident_append, String.toList_append, List.getLast?_append_of_ne_nil]
  exact fun hNil => hEnding (String.toList_eq_nil_iff.mp hNil)

/-! ## Documents where they run -/

/-- A document, the services that it posts to, and the run that it is executed for. -/
structure Deployment where
  resolver : Resolver
  documentId : String
  service : Service
  requestId : String
  main : StepProgram

namespace Deployment

variable {d : Deployment} {s s' s'' : ProgramState} {payload payload' v : Json} {cs ds : List Call}

def scope (d : Deployment) : Scope := .top d.resolver d.documentId

/-- What steps of the document do. -/
def execute (d : Deployment) (steps : StepProgram) (s : ProgramState) :
    Option (Flow × ProgramState) :=
  executeSteps d.service.unpacking steps s

/-- From the one state to the other the document has made these calls, and it
holds this payload now. -/
structure Advances (d : Deployment) (s s' : ProgramState) (payload : Json)
    (cs : List Call) : Prop where
  holds : s'.Holds d.requestId payload
  posts : ∃ posts, s'.posts = s.posts ++ posts ∧ PostsOf d.resolver d.requestId cs posts

theorem Advances.refl (h : s.Holds d.requestId payload) : d.Advances s s payload [] :=
  ⟨h, [], by simp, .nil⟩

theorem Advances.trans (h : d.Advances s s' payload cs) (h' : d.Advances s' s'' payload' ds) :
    d.Advances s s'' payload' (cs ++ ds) := by
  obtain ⟨-, posts, hPosts, hCalls⟩ := h
  obtain ⟨hHolds, posts', hPosts', hCalls'⟩ := h'
  exact ⟨hHolds, posts ++ posts', by rw [hPosts', hPosts, List.append_assoc],
    List.rel_append hCalls hCalls'⟩

/-- From the step of this name on, the document returns the value for the
payload and makes the calls. -/
def Makes (d : Deployment) (name : String) (payload v : Json) (cs : List Call) : Prop :=
  ∀ s : ProgramState, s.Holds d.requestId payload →
    ∃ posts, d.main.Returns d.service.unpacking (d.main.stepsFrom name) s v (s.posts ++ posts) ∧
      PostsOf d.resolver d.requestId cs posts

/-- Steps up to a redirect, and what comes after it. -/
theorem Makes.of_goto {name next : String}
    (hSteps : ∀ s : ProgramState, s.Holds d.requestId payload →
      ∃ s', d.execute (d.main.stepsFrom name) s = some (.goto next, s') ∧
      d.Advances s s' payload' cs)
    (hRest : d.Makes next payload' v ds) : d.Makes name payload v (cs ++ ds) := by
  intro s hs
  obtain ⟨s', hGoto, hHolds, posts, hPosts, hCalls⟩ := hSteps s hs
  obtain ⟨posts', hReturns, hCalls'⟩ := hRest s' hHolds
  rw [hPosts, List.append_assoc] at hReturns
  exact ⟨posts ++ posts', .of_goto hGoto hReturns, List.rel_append hCalls hCalls'⟩

/-- The document has the steps of every state of the workflow and ends it; the
activities are at hand. -/
structure Hosts (d : Deployment) (answers : Answers) (w : Workflow) : Prop where
  serves : d.service.Serves d.resolver answers
  nodup : (Entries.keys d.main).Nodup
  states : ∀ name s, w.state? name = some s →
    ∃ lifted steps, stateSteps d.scope name s = ⟨lifted, .ok steps⟩ ∧ steps <:+: d.main
  ends : [(mainEnd, Step.ret (.read (.var mainPayload)))] <:+: d.main

namespace Hosts

variable {w : Workflow} {site : Site}

/-- A post calls the activity at the address. -/
theorem execute_post (h : d.Hosts answers w) (result : String) {activity url : String}
    {template : Template} {input answer : Json} (hUrl : d.resolver.resolve activity = some url)
    (hAnswer : answers activity input = .ok answer) (hs : s.Holds d.requestId payload)
    (hInput : template.eval s.vars = some input) :
    (Step.post url template result).execute d.service.unpacking s = some (.onward,
      (s.send ⟨url, messageOf (.str d.requestId) input⟩).assign result
        (.single "body" answer)) := by
  apply Step.execute_post hs.requestId hInput
  have hBody : (messageOf (.str d.requestId) input).field? "payload" = some input := rfl
  rw [Service.unpacking, hBody]
  exact h.serves activity url input answer hUrl hAnswer

/-- The end of the document returns the payload. -/
theorem makes_end (h : d.Hosts answers w) (payload : Json) :
    d.Makes mainEnd payload payload [] := by
  intro s hs
  obtain ⟨rest, hSteps⟩ := stepsFrom_of_infix h.nodup h.ends
  refine ⟨[], ?_, .nil⟩
  rw [hSteps, List.append_nil]
  apply Returns.of_ret
  simp [executeSteps, Step.execute, Expr.eval, Place.read, hs.payload]

theorem makes_task (h : d.Hosts answers w) {name : String} {t : TaskState} {steps : StepProgram}
    {u : Json} (hSteps : taskSteps d.scope name t = .ok steps) (hIn : steps <:+: d.main)
    (hAnswer : answers t.activity payload = .ok u) (hRest : d.Makes (d.scope.next t.next) u v cs) :
    d.Makes (d.scope.name name) payload v ((t.activity, payload) :: cs) := by
  obtain ⟨url, hUrl, rfl⟩ := taskSteps_eq_ok_iff.mp hSteps
  obtain ⟨rest, hFrom⟩ := stepsFrom_of_infix h.nodup hIn
  have hCall := PostsOf.single d.requestId payload hUrl
  change d.Makes (d.scope.name name) payload v ([(t.activity, payload)] ++ cs)
  apply Makes.of_goto _ hRest
  intro s hs
  have hInput : (Template.var mainPayload).eval s.vars = some payload := hs.payload
  rw [hFrom]
  refine ⟨_, (executeSteps_onward (h.execute_post mainPayload hUrl hAnswer hs hInput)).trans
    (executeSteps_goto (Step.execute_unwrap _ _ _ u)), ?_, _, rfl, hCall⟩
  exact ((hs.send _).assign_payload _).assign_payload u

/-- A switch redirects to where its state goes on. -/
theorem chooseNext_eq_some (hs : s.Holds d.requestId payload) {default next : Option String}
    {cases : List Case} (h : chooseCase payload default cases = .ok next) :
    chooseNext s.vars (d.scope.next default) (cases.map (condition d.scope)) =
      some (d.scope.next next) := by
  induction cases with
  | nil =>
    cases h
    rfl
  | cons c rest ih =>
    rw [chooseCase] at h
    cases hVar : Path.get payload c.var with
    | error e => simp [hVar] at h
    | ok v =>
      cases hHolds : Comparison.holds? v c.op c.val with
      | none => simp [hVar, hHolds] at h
      | some b =>
        have hTest : (condition d.scope c).test.eval s.vars = some (.bool b) := by
          have hRead : (d.scope.place c.var).read s.vars = some v := hs.read hVar
          simp [condition, Expr.eval, hRead, hHolds]
        rw [List.map_cons, chooseNext, hTest]
        cases b with
        | true =>
          simp only [hVar, hHolds, Except.ok.injEq] at h
          rw [← h]
          rfl
        | false =>
          simp only [hVar, hHolds] at h
          exact ih h

theorem makes_switch (h : d.Hosts answers w) {name : String} {sw : SwitchState}
    {next : Option String} (hIn : switchSteps d.scope name sw <:+: d.main)
    (hNext : sw.choose payload = .ok next) (hRest : d.Makes (d.scope.next next) payload v cs) :
    d.Makes (d.scope.name name) payload v cs := by
  obtain ⟨rest, hFrom⟩ := stepsFrom_of_infix h.nodup hIn
  change d.Makes (d.scope.name name) payload v ([] ++ cs)
  apply Makes.of_goto _ hRest
  intro s hs
  rw [hFrom]
  refine ⟨s, executeSteps_goto ?_, .refl hs⟩
  rw [Step.execute, chooseNext_eq_some hs hNext]
  rfl

/-- The tasks of a repeat from some call on, and what comes after them. -/
theorem makes_chain (h : d.Hosts answers w) {name : String} {r : RepeatState}
    (hTasks : ∀ i < r.count, ∃ steps,
      taskSteps d.scope (unrolledName name i) (r.unrolledTask name i) =
      .ok steps ∧ steps <:+: d.main) (n : Nat) :
    ∀ {i : Nat} {payload : Json} {o : Outcome} {cs : List Call}, i + (n + 1) = r.count →
      (site.repeatCalls r.activity (n + 1) payload).eval answers = some (o, cs) →
      d.Makes (d.scope.next r.next) o.payload v ds →
      d.Makes (d.scope.name (unrolledName name i)) payload v (cs ++ ds) := by
  induction n with
  | zero =>
    intro i payload o cs hCount hEval hRest
    obtain ⟨steps, hSteps, hIn⟩ := hTasks i (by omega)
    obtain ⟨u, es, hu, hLast, rfl⟩ := Site.eval_repeatCalls_succ.mp hEval
    cases hLast
    have hNext : (r.unrolledTask name i).next = r.next := by
      rw [RepeatState.unrolledTask, if_neg (by omega)]
    apply h.makes_task hSteps hIn hu
    rw [hNext]
    exact hRest
  | succ n ih =>
    intro i payload o cs hCount hEval hRest
    obtain ⟨steps, hSteps, hIn⟩ := hTasks i (by omega)
    obtain ⟨u, es, hu, hLater, rfl⟩ := Site.eval_repeatCalls_succ.mp hEval
    have hNext : (r.unrolledTask name i).next = some (unrolledName name (i + 1)) := by
      rw [RepeatState.unrolledTask, if_pos (by omega)]
    apply h.makes_task hSteps hIn hu
    rw [hNext]
    exact ih (by omega) hLater hRest

theorem makes_repeat (h : d.Hosts answers w) {name : String} {r : RepeatState} {steps : StepProgram}
    {o : Outcome} (hSteps : chainSteps d.scope (r.unrolled name) = .ok steps)
    (hIn : steps <:+: d.main) (hCount : r.count ≠ 0)
    (hEval : (site.repeatCalls r.activity r.count payload).eval answers = some (o, cs))
    (hRest : d.Makes (d.scope.next r.next) o.payload v ds) :
    d.Makes (d.scope.name name) payload v (cs ++ ds) := by
  obtain ⟨n, hSucc⟩ := Nat.exists_eq_succ_of_ne_zero hCount
  have hTasks : ∀ i < r.count, ∃ task,
      taskSteps d.scope (unrolledName name i) (r.unrolledTask name i) =
      .ok task ∧ task <:+: d.main := by
    intro i hi
    have hMem : (unrolledName name i, r.unrolledTask name i) ∈ r.unrolled name :=
      List.mem_map.mpr ⟨i, List.mem_range.mpr hi, rfl⟩
    obtain ⟨task, hTask, hInChain⟩ := chainSteps_eq_ok hSteps _ _ hMem
    exact ⟨task, hTask, hInChain.trans hIn⟩
  have hLength : 0 + (n + 1) = r.count := by omega
  rw [hSucc] at hEval
  have hChain := h.makes_chain hTasks n hLength hEval hRest
  rwa [unrolledName, if_pos rfl] at hChain

/-- The steps inside a loop make its calls, one for each element, and leave the payload. -/
theorem executeEach_loop (h : d.Hosts answers w) (invoke : String)
    {activity url element response : String} (hUrl : d.resolver.resolve activity = some url)
    (hElement : mainPayload ≠ element ∧ requestIdVar ≠ element)
    (hResponse : mainPayload ≠ response ∧ requestIdVar ≠ response) {elements : List Json} :
    ∀ {s : ProgramState} {o : Outcome} {cs : List Call}, s.Holds d.requestId payload →
      (site.loopCalls activity payload elements).eval answers = some (o, cs) →
      o.payload = payload ∧ ∃ s', executeEach element
        (executeSteps d.service.unpacking [(invoke, .post url (.var element) response)])
          elements s = some s' ∧ d.Advances s s' payload cs := by
  induction elements with
  | nil =>
    intro s o cs hs hEval
    cases hEval
    exact ⟨rfl, s, rfl, .refl hs⟩
  | cons value rest ih =>
    intro s o cs hs hEval
    obtain ⟨answer, es, hAnswer, hLater, rfl⟩ := Site.eval_loopCalls_cons.mp hEval
    have hsElement := hs.assign hElement.1 hElement.2 value
    have hInput : (Template.var element).eval (s.assign element value).vars = some value :=
      s.get?_assign_self element value
    have hPost := h.execute_post response hUrl hAnswer hsElement hInput
    have hsAnswer := (hsElement.send ⟨url, messageOf (.str d.requestId) value⟩).assign hResponse.1
      hResponse.2 (.single "body" answer)
    have hCall := PostsOf.single d.requestId value hUrl
    obtain ⟨hPayload, s', hEach, hAdvances⟩ := ih hsAnswer hLater
    have hAdvance : d.Advances s _ payload [(activity, value)] := ⟨hsAnswer, _, rfl, hCall⟩
    refine ⟨hPayload, s', ?_, hAdvance.trans hAdvances⟩
    rw [executeEach, executeSteps_onward hPost, executeSteps]
    exact hEach

theorem makes_loop (h : d.Hosts answers w) {name : String} {l : LoopState} {steps : StepProgram}
    {elements : List Json} {o : Outcome} (hSteps : loopSteps d.scope name l = .ok steps)
    (hIn : steps <:+: d.main) (hArray : arrayAt payload l.array = .ok elements)
    (hEval : (site.loopCalls l.activity payload elements).eval answers = some (o, cs))
    (hRest : d.Makes (d.scope.next l.next) o.payload v ds) :
    d.Makes (d.scope.name name) payload v (cs ++ ds) := by
  obtain ⟨url, hUrl, rfl⟩ := loopSteps_eq_ok_iff.mp hSteps
  obtain ⟨rest, hFrom⟩ := stepsFrom_of_infix h.nodup hIn
  -- The variables of a loop end in other letters than those of the payload and of the id.
  have hElement : mainPayload ≠ d.scope.name (name ++ "_element") ∧
      requestIdVar ≠ d.scope.name (name ++ "_element") :=
    ⟨ne_ident_append (by decide) (by decide), ne_ident_append (by decide) (by decide)⟩
  have hResponse : mainPayload ≠ d.scope.name (name ++ "_response") ∧
      requestIdVar ≠ d.scope.name (name ++ "_response") :=
    ⟨ne_ident_append (by decide) (by decide), ne_ident_append (by decide) (by decide)⟩
  apply Makes.of_goto _ hRest
  intro s hs
  obtain ⟨hPayload, s', hEach, hAdvances⟩ :=
    h.executeEach_loop (d.scope.name (name ++ "_invoke")) hUrl hElement hResponse hs hEval
  rw [hFrom, hPayload]
  have hRead : (d.scope.place l.array).read s.vars = some (.arr elements) :=
    hs.read (arrayAt_eq_ok_iff.mp hArray)
  refine ⟨s', (executeSteps_onward ?_).trans (executeSteps_goto rfl), hAdvances⟩
  exact Step.execute_forEach hRead rfl hEach

/-- What a state does and what comes after it, its steps do. -/
theorem makes_state (h : d.Hosts answers w) {limits : Limits} {name : String} {st : State}
    {lifted : List (String × Workflow)} {steps : StepProgram} {next : Option String} {o : Outcome}
    (hSteps : stateSteps d.scope name st = ⟨lifted, .ok steps⟩) (hIn : steps <:+: d.main)
    (hValid : st.validate name = .ok ()) (hSequential : st.Sequential)
    (hNext : st.successor payload = .ok next)
    (hEval : (st.transition site limits payload).eval answers = some (o, cs))
    (hRest : d.Makes (d.scope.next next) o.payload v ds) :
    d.Makes (d.scope.name name) payload v (cs ++ ds) := by
  cases st with
  | task t =>
    cases hNext
    obtain ⟨u, es, hu, hLast, rfl⟩ := Site.eval_repeatCalls_succ.mp hEval
    cases hLast
    exact h.makes_task (Lifting.ofExcept_eq_ok_iff.mp hSteps).2 hIn hu hRest
  | switch sw =>
    cases hEval
    obtain ⟨-, rfl⟩ := Lifting.pure_eq_ok_iff.mp hSteps
    exact h.makes_switch hIn hNext hRest
  | «repeat» r =>
    cases hNext
    exact h.makes_repeat (Lifting.ofExcept_eq_ok_iff.mp hSteps).2 hIn
      (State.validate_repeat_eq_ok_iff.mp hValid) hEval hRest
  | loop l =>
    cases hNext
    rw [State.transition] at hEval
    cases hArray : arrayAt payload l.array with
    | error e => simp [hArray, Site.fail] at hEval
    | ok elements =>
      rw [hArray] at hEval
      exact h.makes_loop (Lifting.ofExcept_eq_ok_iff.mp hSteps).2 hIn hArray hEval hRest
  | map m => simp [State.Sequential, State.kind] at hSequential
  | parallel p => simp [State.Sequential, State.kind] at hSequential

end Hosts

end Deployment

/-! ## Walks and runs -/

variable {limits : Limits} {d : Deployment} {w : Workflow}

/-- What a walk evaluates to, the document does from the first step of its first state on. -/
theorem Workflow.makes_of_eval_walk (hHosts : d.Hosts answers w) (hValid : w.validate = .ok ())
    (hSequential : w.Sequential) {ctx : Context} {fuel : Nat} :
    ∀ {name : String} {payload : Json} {visited : List String} {o : Outcome} {cs : List Call},
      (w.walk limits fuel ctx name payload visited).eval answers = some (o, cs) →
      d.Makes (d.scope.name name) payload o.payload cs := by
  -- A workflow in circles comes to the same steps again and again; it is the fuel that gets less.
  induction fuel with
  | zero =>
    intro name payload visited o cs hEval
    cases hEval
  | succ fuel ih =>
    intro name payload visited o cs hEval
    obtain ⟨s, next, o', ds, es, hState, hNext, hStep, hRest, rfl⟩ :=
      Workflow.eval_walk_eq_some.mp hEval
    obtain ⟨lifted, steps, hSteps, hIn⟩ := hHosts.states name s hState
    have hMem := Workflow.mem_states hState
    have hInside := ((Workflow.validate_eq_ok_iff.mp hValid).2 name s hMem).2
    apply hHosts.makes_state hSteps hIn hInside (hSequential _ hMem) hNext hStep
    cases next with
    | none =>
      obtain ⟨rfl, rfl⟩ := hRest
      exact hHosts.makes_end o'.payload
    | some next => exact ih hRest

/-- The document of a workflow has the steps of its states. -/
theorem Workflow.hosts_mainSteps {resolver : Resolver} {id requestId : String} {service : Service}
    {lifted : List (String × Workflow)} {p : StepProgram}
    (hServes : service.Serves resolver answers)
    (hProgram : w.stepProgram (.top resolver id) = ⟨lifted, .ok p⟩) :
    (Deployment.mk resolver id service requestId (mainSteps (ident w.root) p)).Hosts answers w := by
  obtain ⟨hNodup, hFree, hIn⟩ := statesSteps_eq_ok hProgram
  have hWithin : p <:+: mainSteps (ident w.root) p := ⟨[_], [_], rfl⟩
  refine ⟨hServes, ?_, ?_, ?_⟩
  · have hKeys :
        Entries.keys (mainSteps (ident w.root) p) = mainStart :: (Entries.keys p ++ [mainEnd]) := by
      simp [mainSteps, Entries.keys]
    have hReserved : ∀ name ∈ Entries.keys p, name ≠ mainStart ∧ name ≠ mainEnd := by
      simpa [reserved] using hFree
    have hEnds : mainStart ≠ mainEnd := by decide
    rw [hKeys, List.nodup_cons, List.nodup_append]
    refine ⟨?_, hNodup, List.nodup_singleton _, ?_⟩
    · simp only [List.mem_append, List.mem_singleton, not_or]
      exact ⟨fun hMem => (hReserved _ hMem).1 rfl, hEnds⟩
    · rintro name hName _ hEnd rfl
      exact (hReserved name hName).2 (List.mem_singleton.mp hEnd)
  · intro name s hState
    obtain ⟨l, steps, hSteps, hSub⟩ := hIn name s (Workflow.mem_states hState)
    exact ⟨l, steps, hSteps, hSub.trans hWithin⟩
  · exact ⟨(mainStart, initAction (ident w.root)) :: p, [], by simp [mainSteps]⟩

/-- What the document of a workflow is given. -/
def programInput (requestId : String) (payload : Json) : Json :=
  .obj [("payload", payload), (requestIdVar, .str requestId)]

/-- If a run of a valid sequential workflow ends well, the steps of its document, followed for long
enough, return the same payload and post the calls of the run in order, each with its id. -/
theorem Workflow.exists_program_run {resolver : Resolver} {id : String} {doc : Json} {g : Generator}
    {caller : Caller} {fuel : Nat} {requestId : String} {payload : Json} {e : Execution}
    {o : Outcome} (hValid : w.validate = .ok ()) (hSequential : w.Sequential)
    (hDoc : (Generator.fresh resolver id).document w = (.ok doc, g)) (hResolver : resolver.Distinct)
    (hCaller : caller.AnswersBy answers)
    (hRun : w.run limits caller fuel requestId payload = some e) (hOk : e.result = .ok o) :
    ∃ p, (w.stepProgram (.top resolver id)).result = .ok p ∧
      doc = mainDocument (mainSteps (ident w.root) p) ∧
      ∃ n posts, (∀ m, n ≤ m → (mainSteps (ident w.root) p).run (resolver.serve answers).unpacking m
          (programInput requestId payload) = some (o.payload, posts)) ∧
        PostsOf resolver requestId (e.calls.map Request.call) posts := by
  obtain ⟨lifted, p, hProgram, rfl⟩ := Workflow.document_eq_ok hDoc
  refine ⟨p, by rw [hProgram], toJson_eq_mainDocument _ p, ?_⟩
  have hHosts : (Deployment.mk resolver id (resolver.serve answers) requestId _).Hosts answers w :=
    Workflow.hosts_mainSteps (resolver.serves_serve answers hResolver) hProgram
  have hMakes := Workflow.makes_of_eval_walk hHosts hValid hSequential
    (Workflow.eval_calls_of_run hSequential hCaller hRun hOk)
  -- The first step reads both variables from the input and redirects to the root.
  obtain ⟨s, hStart, hPosts, hs⟩ : ∃ s, executeSteps (resolver.serve answers).unpacking
      (mainSteps (ident w.root) p) ⟨[("input", programInput requestId payload)], []⟩ =
        some (.goto (ident w.root), s) ∧ s.posts = [] ∧ s.Holds requestId payload :=
    ⟨_, executeSteps_goto rfl, rfl, rfl, rfl⟩
  obtain ⟨posts, hReturns, hCalls⟩ := hMakes s hs
  obtain ⟨n, hFollow⟩ := StepProgram.Returns.of_goto hStart hReturns
  rw [hPosts, List.nil_append] at hFollow
  exact ⟨n, posts, fun m hm => follow_mono hFollow hm, hCalls⟩

/-- Counts up in circles, then twice more, and notes each of some items. -/
def countUp : Workflow :=
  ⟨"low?", [("low?", .switch ⟨[⟨"at.n", .lessThan, .int 2, "count up"⟩], some "twice"⟩),
    ("count up", .task ⟨"add", some "low?"⟩), ("twice", .repeat ⟨"add", 2, some "notes"⟩),
    ("notes", .loop ⟨"note", "items", none⟩)]⟩

/-- The payload with that count. -/
def counted (n : Int) : Json :=
  .obj [("at", .obj [("n", .int n)]), ("items", .arr [.str "x", .str "y"])]

/-- Adds one to the count, and answers everything else with `null`. -/
def counting : Answers := fun activity payload =>
  match activity, Path.get payload "at.n" with
  | "add", .ok (.int n) => .ok (counted (n + 1))
  | _, _ => .ok .null

def countAddresses : Resolver := ⟨none, [("add", "/add"), ("note", "/note")]⟩

theorem countAddresses_distinct : countAddresses.Distinct := by
  intro a b address ha hb
  simp only [Resolver.resolve, countAddresses, Entries.get?] at ha hb
  grind

/-- The document of a workflow in circles makes all of its calls. -/
theorem Workflow.exists_program_run_countUp :
    countUp.validate = .ok () ∧ countUp.Sequential ∧
      ∃ doc g p, (Generator.fresh countAddresses "flow").document countUp = (.ok doc, g) ∧
        doc = mainDocument (mainSteps "low_" p) ∧
        ∃ n posts,
          (∀ m, n ≤ m → (mainSteps "low_" p).run (countAddresses.serve counting).unpacking m
            (programInput "r" (counted 0)) = some (counted 4, posts)) ∧
          PostsOf countAddresses "r" [("add", counted 0), ("add", counted 1), ("add", counted 2),
            ("add", counted 3), ("note", .str "x"), ("note", .str "y")] posts := by
  have hSequential : countUp.Sequential := by decide
  obtain ⟨doc, g, hGenerated⟩ : ∃ doc g, (Generator.fresh countAddresses "flow").document countUp =
      (.ok doc, g) := ⟨_, _, rfl⟩
  obtain ⟨e, hRun, hOk, hCalls⟩ :
      ∃ e, countUp.run ⟨0, none, none⟩ (counting.caller fun _ => 0) 9 "r" (counted 0) = some e ∧
        e.result =
          .ok ⟨counted 4, ["low?", "count up", "low?", "count up", "low?", "twice", "notes"]⟩ ∧
        e.calls.map Request.call = [("add", counted 0), ("add", counted 1), ("add", counted 2),
          ("add", counted 3), ("note", .str "x"), ("note", .str "y")] := ⟨_, rfl, rfl, rfl⟩
  obtain ⟨p, -, hDoc, n, posts, hReturns, hPosts⟩ := Workflow.exists_program_run rfl hSequential
    hGenerated countAddresses_distinct (counting.caller_answersBy _) hRun hOk
  rw [hCalls] at hPosts
  exact ⟨rfl, hSequential, doc, g, p, hGenerated, hDoc, n, posts, hReturns, hPosts⟩

end Orchestration
