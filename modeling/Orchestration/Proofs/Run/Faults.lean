import Orchestration.Proofs.Run.Branches
import Orchestration.Proofs.Run.Congruence
import Orchestration.Proofs.Run.Doomed
import Orchestration.Proofs.Run.Failures
import Orchestration.Proofs.Run.WriteBack

/-!
# Faults are found first

A state that fails for a fault of its payload or of its own (`RunError.IsFault`) has started
nothing: neither a call nor a workflow inside it. All that can be wrong with what a state reads is
found before its first call, and what comes after the calls does not fail.

* `State.step`: what a run does at one state; `Workflow.walk_eq_step` puts
  walks together from steps.
* `Site.EntersLate.map`, `Site.EntersLate.parallel`: once the inputs are there,
  only what was started fails.
* `State.step_fault_or_meets`: a step fails at once, or no cause for which it fails is a fault.
* `State.startsNothing_of_isFault`: a step that failed for a fault is that failure and nothing else.
-/

namespace Orchestration

variable {limits : Limits} {site : Site} {payload : Json}

/-! ## Steps -/

/-- What a run does at a state: it chooses the successor and makes the transition. -/
def State.step (site : Site) (limits : Limits) (s : State) (payload : Json) : Process :=
  match s.successor payload with
  | .error e => site.fail payload e
  | .ok _ => s.transition site limits payload

/-- A walk is a step at a state, and then the walk from the successor that was chosen. -/
theorem Workflow.walk_eq_step (limits : Limits) (fuel : Nat) (ctx : Context) (w : Workflow)
    (name : String) (payload : Json) (visited : List String) :
    w.walk limits (fuel + 1) ctx name payload visited =
      match w.state? name with
      | none => .fail (.failedAt name payload (.unknownState name))
      | some s => (s.step (ctx.siteAt limits fuel name) limits payload).andThen fun o =>
        match s.successor payload with
        | .ok (some next) => w.walk limits fuel ctx next o.payload (name :: visited)
        | _ => .done (.ok ⟨o.payload, (name :: visited).reverse⟩) := by
  rw [Workflow.walk_succ]
  cases w.state? name with
  | none => rfl
  | some s =>
    dsimp only
    rw [State.step]
    cases s.successor payload with
    | error e => rfl
    | ok next => cases next <;> rfl

/-! ## Failures of walks -/

/-- A workflow failed at one of its states. -/
def RunError.IsAtState (e : RunError) : Prop :=
  ∃ name payload cause, e = .failedAt name payload cause

theorem RunError.IsAtState.not_isFault {e : RunError} (h : e.IsAtState) : ¬ e.IsFault := by
  obtain ⟨name, payload, cause, rfl⟩ := h
  rintro (⟨⟨⟩⟩ | _ | _)

/-- Every failure of a walk is one at a state. -/
theorem Workflow.walk_failsAtState {A : Answering} (fuel : Nat) :
    ∀ (ctx : Context) (w : Workflow) (name : String) (payload : Json) (visited : List String),
      (w.walk limits fuel ctx name payload visited).Meets A (FailsBy RunError.IsAtState) := by
  induction fuel with
  | zero =>
    intro ctx w name payload visited
    rw [Workflow.walk, Process.Meets]
    trivial
  | succ fuel ih =>
    intro ctx w name payload visited
    have hTurns : (ctx.siteAt limits fuel name).Turns (fun _ => True) RunError.IsAtState :=
      ⟨fun _ _ => trivial, fun payload cause _ => ⟨_, payload, cause, rfl⟩⟩
    rw [Workflow.walk_succ]
    split
    · exact Process.meets_failsBy_fail ⟨_, _, _, rfl⟩
    · split
      · exact Process.meets_failsBy_fail ⟨_, _, _, rfl⟩
      · refine Process.Meets.andThen (fun o _ => ?_) (fun e he => he)
          (State.meets_failsBy hTurns ?_ payload)
        · split
          · rw [Process.Meets]
            rintro e ⟨⟩
          · exact ih _ _ _ _ _
        · exact fun inner _ input => (Process.meets_anyEnd _).mono fun _ _ _ _ => trivial

/-- A workflow one level deeper never fails for a fault of the state that runs it. -/
theorem Context.enter_failsLate {A : Answering} (ctx : Context) (limits : Limits) (fuel : Nat)
    (w : Workflow) (input : Json) :
    (ctx.enter limits fuel w input).Meets A (FailsBy fun e => ¬ e.IsFault) := by
  unfold Context.enter
  split
  · refine Process.meets_failsBy_fail ?_
    rintro (⟨⟨⟩⟩ | _ | _)
  · exact (Workflow.walk_failsAtState fuel _ w w.root input []).mono fun r h e he =>
      (h e he).not_isFault

/-! ## Failures of steps -/

section Step

variable {A : Answering}

/-- A failure at a state whose cause is no fault. -/
def RunError.IsLate (e : RunError) : Prop :=
  ∃ name payload cause, e = .failedAt name payload cause ∧ ¬ cause.IsFault

theorem RunError.not_isFault_activity (e : ActivityError) : ¬ (RunError.activity e).IsFault := by
  rintro (⟨⟨⟩⟩ | _ | _)

theorem Site.dispatch_failsLate (activity : String) (input : Json) :
    (site.dispatch activity input).Meets A (FailsBy fun e => ¬ e.IsFault) := by
  rw [Site.dispatch, Process.single, Process.Meets]
  rintro (e | v) -
  · exact Process.meets_failsBy_fail (RunError.not_isFault_activity e)
  · exact Process.meets_failsBy_value v

theorem Site.repeatCalls_failsLate (activity : String) (n : Nat) (payload : Json) :
    (site.repeatCalls activity n payload).Meets A (FailsBy RunError.IsLate) := by
  induction n generalizing payload with
  | zero => exact Process.meets_failsBy_value payload
  | succ n ih =>
    rw [Site.repeatCalls, Process.Meets]
    rintro (e | v) -
    · exact Process.meets_failsBy_fail ⟨_, _, _, rfl, RunError.not_isFault_activity e⟩
    · exact ih v

theorem Site.loopCalls_failsLate (activity : String) (payload : Json) (elements : List Json) :
    (site.loopCalls activity payload elements).Meets A (FailsBy RunError.IsLate) := by
  induction elements with
  | nil => exact Process.meets_failsBy_value payload
  | cons element rest ih =>
    rw [Site.loopCalls, Process.Meets]
    rintro (e | v) -
    · exact Process.meets_failsBy_fail ⟨_, _, _, rfl, RunError.not_isFault_activity e⟩
    · exact ih

/-- The workflows inside a state do not fail for faults of the state. -/
def Site.EntersLate (A : Answering) (site : Site) : Prop :=
  ∀ w input, (site.enter w input).Meets A (FailsBy fun e => ¬ e.IsFault)

/-- A fork of calls and workflows inside a state, after which the state does not fail any more. -/
theorem Site.EntersLate.fork (h : site.EntersLate A) (s : State) (payload : Json) {width : Width}
    {strands : List Process} {next : Except RunError (List Outcome) → Process}
    (hParts : ∀ p ∈ strands, s.Part site p) (hError : ∀ e, next (.error e) = site.fail payload e)
    (hOk : ∀ os : List Outcome, ∃ v, next (.ok os) = .value v) :
    (Process.fork width strands next).Meets A (FailsBy RunError.IsLate) := by
  refine Process.meets_fork_of_forall (P := FailsBy fun e => ¬ e.IsFault) (fun p hp => ?_) ?_ ?_
  · cases hParts p hp with
    | call activity input => exact Site.dispatch_failsLate activity input
    | enter _ input => exact h _ input
  · intro e he
    rw [hError]
    exact Process.meets_failsBy_fail ⟨_, _, e, rfl, he e rfl⟩
  · intro os _
    obtain ⟨v, hv⟩ := hOk os
    rw [hv]
    exact Process.meets_failsBy_value v

/-- A map whose inputs are there fails late: the results of its calls can be written back. -/
theorem Site.EntersLate.map (h : site.EntersLate A) (limits : Limits) {m : MapState}
    {inputs : List Json} (hInputs : m.inputs payload = .ok inputs) :
    (m.transition site limits payload).Meets A (FailsBy RunError.IsLate) := by
  rw [MapState.transition, hInputs]
  refine h.fork (.map m) payload (fun p hp => ?_) (fun e => rfl) fun os => ?_
  · obtain ⟨input, -, rfl⟩ := List.mem_map.mp hp
    exact m.part_process input
  · obtain ⟨v, hSet⟩ := MapState.exists_set hInputs (.arr (os.map Outcome.payload))
    exact ⟨v, by simp only [hSet]⟩

/-- A parallel state of which all branches can be planned fails late. -/
theorem Site.EntersLate.parallel (h : site.EntersLate A) {p : ParallelState}
    {plans : List BranchPlan} (hPlans : branchPlans site payload p.branches = .ok plans) :
    (p.transition site payload).Meets A (FailsBy RunError.IsLate) := by
  rw [ParallelState.transition, hPlans]
  exact h.fork (.parallel p) payload (ParallelState.part_of_branchPlans hPlans) (fun e => rfl)
    fun os => ⟨_, rfl⟩

/-- The state fails at once for a fault, and would do so whatever the workflows inside it do. -/
def State.FailsAtOnce (limits : Limits) (s : State) (name requestId : String) (payload : Json)
    (cause : RunError) :
    Prop :=
  ∀ enter, s.step ⟨name, requestId, enter⟩ limits payload = .fail (.failedAt name payload cause)

/-- A state fails at once for a fault, or no cause for which it fails later on is one. -/
theorem State.step_fault_or_meets (hSite : site.EntersLate A) (limits : Limits) (s : State)
    (payload : Json) :
    (∃ cause : RunError, cause.IsFault ∧
      s.FailsAtOnce limits site.name site.requestId payload cause) ∨
      (s.step site limits payload).Meets A (FailsBy RunError.IsLate) := by
  cases s with
  | task t => exact .inr (Site.repeatCalls_failsLate t.activity 1 payload)
  | «switch» sw =>
    cases hNext : (State.switch sw).successor payload with
    | error e =>
      refine .inl ⟨e, .ofPayload (State.successor_ofPayload hNext), fun enter => ?_⟩
      rw [State.step, hNext]
      rfl
    | ok next =>
      rw [State.step, hNext]
      exact .inr (Process.meets_failsBy_value payload)
  | map m =>
    cases hInputs : m.inputs payload with
    | error e =>
      refine .inl ⟨e, .ofPayload (MapState.inputs_ofPayload hInputs), fun enter => ?_⟩
      change m.transition _ limits payload = _
      rw [MapState.transition, hInputs]
      rfl
    | ok inputs => exact .inr (hSite.map limits hInputs)
  | «repeat» r => exact .inr (Site.repeatCalls_failsLate r.activity r.count payload)
  | loop l =>
    cases hArray : arrayAt payload l.array with
    | error e =>
      refine .inl ⟨e, .ofPayload (arrayAt_ofPayload hArray), fun enter => ?_⟩
      change (State.loop l).transition _ limits payload = _
      rw [State.transition, hArray]
      rfl
    | ok elements =>
      refine .inr ?_
      change ((State.loop l).transition site limits payload).Meets A _
      rw [State.transition, hArray]
      exact Site.loopCalls_failsLate l.activity payload elements
  | parallel p =>
    cases hPlans : branchPlans site payload p.branches with
    | error e =>
      refine .inl ⟨e, branchPlans_isFault hPlans, fun enter => ?_⟩
      change p.transition _ payload = _
      rw [ParallelState.transition, branchPlans_error_congr hPlans]
      rfl
    | ok plans => exact .inr (hSite.parallel hPlans)

end Step

/-! ## Nothing is started -/

/-- A parallel state fails at once unless the inputs of all maps among its branches are there. -/
theorem ParallelState.failsAtOnce_of_inputs {p : ParallelState} (h : ¬ p.InputsResolve payload)
    (name requestId : String) :
    ∃ cause : RunError, cause.IsFault ∧
      (State.parallel p).FailsAtOnce limits name requestId payload cause := by
  let anywhere : Site := ⟨name, requestId, fun _ _ => .exhausted⟩
  cases hPlans : branchPlans anywhere payload p.branches with
  | ok plans => exact absurd (ParallelState.inputsResolve_of_plans hPlans) h
  | error e =>
    refine ⟨e, branchPlans_isFault hPlans, fun enter => ?_⟩
    change p.transition _ payload = _
    rw [ParallelState.transition, branchPlans_error_congr hPlans]
    rfl

/-- If a step of a run fails for a fault, of the payload or of the state, it is that failure and
nothing else: no call was made, no time has passed, and the workflows inside the state could do
anything. In particular a parallel state starts nothing unless the inputs of all its maps are there,
and a map whose inputs are there can write its results. -/
theorem State.startsNothing_of_isFault (env : Environment) (limits : Limits) (ctx : Context)
    (fuel : Nat) (name : String) (s : State) (payload : Json) :
    let run := s.step (ctx.siteAt limits fuel name) limits payload
    (∀ w steps state left cause w', (run.start env w).1.settle env steps (run.start env w).2 =
        some (.error (.failedAt state left cause), w') → cause.IsFault →
      s.FailsAtOnce limits name ctx.requestId payload cause ∧ w' = w) ∧
    (∀ p, s = .parallel p → ¬ p.InputsResolve payload →
      ∃ cause : RunError, cause.IsFault ∧ s.FailsAtOnce limits name ctx.requestId payload cause) ∧
    ∀ m inputs, s = .map m → m.inputs payload = .ok inputs →
      ∀ results, ∃ v, Path.set payload results m.array = .ok v := by
  intro run
  refine ⟨fun w steps state left cause w' hSettle hFault => ?_, ?_, ?_⟩
  · have hEntersLate : (ctx.siteAt limits fuel name).EntersLate anyAnswer := fun inner input =>
      ctx.enter_failsLate limits fuel inner input
    rcases State.step_fault_or_meets hEntersLate limits s payload with ⟨found, hFound, hAtOnce⟩
      | hLate
    · -- The failure that was found at once is the one that the run ended with.
      have hRun : run = .fail (.failedAt name payload found) := hAtOnce _
      rw [hRun, Process.fail, Process.start] at hSettle
      cases steps with
      | zero => cases hSettle
      | succ steps =>
        cases hSettle
        exact ⟨hAtOnce, rfl⟩
    · have hAny : ∀ w r, anyAnswer r (env.respond w r).answer := fun _ _ => trivial
      obtain ⟨_, _, found, hSame, hNoFault⟩ :=
        Strand.settle_meets hAny steps (Process.start_meets hAny run _ w hLate) hSettle _ rfl
      cases hSame
      exact absurd hFault hNoFault
  · rintro p rfl hInputs
    exact ParallelState.failsAtOnce_of_inputs hInputs name ctx.requestId
  · rintro m inputs - hInputs
    exact MapState.exists_set hInputs

/-- A branch of several steps that could be started, and then one whose elements are not there. -/
def missingElements : ParallelState :=
  ⟨[⟨some "steps", ⟨"t", [("t", .task ⟨"f", some "u"⟩), ("u", .task ⟨"g", none⟩)]⟩⟩,
    ⟨some "elements", ⟨"m", [("m", .map ⟨.activity "f", "xs", none, none, none⟩)]⟩⟩], none⟩

/-- What is missing for the last branch is found before the first one starts. -/
theorem State.startsNothing_of_isFault_missingElements :
    let run :=
      (State.parallel missingElements).step ((Context.top "r").siteAt ⟨3, none, none⟩ 5 "p")
        ⟨3, none, none⟩ (.obj [])
    (run.start ⟨Caller.echo, none⟩ ⟨0, []⟩).1.settle ⟨Caller.echo, none⟩ 1
        (run.start ⟨Caller.echo, none⟩ ⟨0, []⟩).2 =
      some (.error (.failedAt "p" (.obj []) (.path (.notFound "xs" "xs"))), ⟨0, []⟩) ∧
    (RunError.path (.notFound "xs" "xs")).IsFault ∧
    (State.parallel missingElements).FailsAtOnce ⟨3, none, none⟩ "p" "r" (.obj [])
        (.path (.notFound "xs" "xs")) := by
  intro run
  have hSettle : (run.start ⟨Caller.echo, none⟩ ⟨0, []⟩).1.settle ⟨Caller.echo, none⟩ 1
      (run.start ⟨Caller.echo, none⟩ ⟨0, []⟩).2 =
    some (.error (.failedAt "p" (.obj []) (.path (.notFound "xs" "xs"))), ⟨0, []⟩) := rfl
  have hFault : (RunError.path (.notFound "xs" "xs")).IsFault := .ofPayload (.path _)
  have hAll := State.startsNothing_of_isFault ⟨Caller.echo, none⟩ ⟨3, none, none⟩ (.top "r") 5 "p"
    (.parallel missingElements) (.obj [])
  exact ⟨hSettle, hFault, (hAll.1 _ _ _ _ _ _ hSettle hFault).1⟩

end Orchestration
