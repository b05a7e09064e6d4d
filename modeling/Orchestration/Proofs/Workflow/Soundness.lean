import Orchestration.Proofs.Run.Failures
import Orchestration.Proofs.Workflow.Levels

/-!
# Soundness of validation

A run of a valid workflow never comes to a state that is not declared, nor to a branch that it
cannot start, at any level. The walk carries the invariant: the workflow is valid and declares the
state at which the walk stands.

* `State.meets_sound`: what the transition of a valid state keeps.
* `Workflow.walk_meets_sound`: the same for walks, by their steps.
* `Workflow.run_sound`: runs, and all levels of a valid workflow.
-/

namespace Orchestration

/-! ## Sound failures -/

/-- A failure and all its causes, from the outermost inwards. -/
def RunError.chain : RunError → List RunError
  | .failedAt state payload cause => .failedAt state payload cause :: cause.chain
  | e => [e]

/-- The workflow itself is at fault: a state is not declared, or a branch cannot be started. -/
inductive RunError.BlamesWorkflow : RunError → Prop
  | unknownState (name : String) : BlamesWorkflow (.unknownState name)
  | unsupportedBranch (branch : String) (kind : Kind) :
    BlamesWorkflow (.unsupportedBranch branch kind)

/-- No cause lies in the workflow itself. -/
def RunError.Sound (e : RunError) : Prop := ∀ cause ∈ e.chain, ¬ cause.BlamesWorkflow

/-- Failures are sound. -/
def SoundEnd : Post := fun r => ∀ e, r = .error e → e.Sound

theorem RunError.sound_failedAt {state : String} {payload : Json} {cause : RunError}
    (h : cause.Sound) : (RunError.failedAt state payload cause).Sound := by
  intro e he
  rcases List.mem_cons.mp he with rfl | he
  · rintro ⟨⟩
  · exact h e he

/-- A failure that has no cause of its own. -/
theorem RunError.sound_of_chain_eq {e : RunError} (hLeaf : e.chain = [e]) (h : ¬ e.BlamesWorkflow) :
    e.Sound := by
  intro cause hCause
  rw [hLeaf, List.mem_singleton] at hCause
  rwa [hCause]

/-- What a payload does not have is not the fault of the workflow. -/
theorem RunError.OfPayload.sound {e : RunError} (h : e.OfPayload) : e.Sound := by
  cases h <;> exact RunError.sound_of_chain_eq rfl (by rintro ⟨⟩)

/-! ## Successors -/

theorem chooseCase_mem {payload : Json} {default : Option String} {cases : List Case}
    {next : String} (h : chooseCase payload default cases = .ok (some next)) :
    next ∈ cases.map Case.next ++ default.toList := by
  induction cases with
  | nil =>
    cases h
    simp
  | cons c rest ih =>
    rw [chooseCase] at h
    split at h
    · cases h
    · split at h
      · cases h
      · cases h
        simp
      · exact List.mem_cons_of_mem _ (ih h)

/-- A state goes on to one of its targets. -/
theorem State.successor_mem {s : State} {payload : Json} {next : String}
    (h : s.successor payload = .ok (some next)) : next ∈ s.targets := by
  cases s with
  | switch sw => exact chooseCase_mem h
  | _ =>
    simp only [State.successor, Except.ok.injEq] at h
    simp [State.targets, h]

/-! ## Transitions -/

section Transition

variable {site : Site} {limits : Limits}

/-- Valid workflows inside the state fail soundly. -/
def Site.Sound (site : Site) : Prop :=
  ∀ w input, w.validate = .ok () → (site.enter w input).Meets anyAnswer SoundEnd

theorem SoundEnd.of_ok (o : Outcome) : SoundEnd (.ok o) := by
  rintro e ⟨⟩

theorem SoundEnd.of_error {e : RunError} (h : e.Sound) : SoundEnd (.error e) := by
  rintro e' ⟨⟩
  exact h

theorem Process.meets_sound_value (payload : Json) :
    (Process.value payload).Meets anyAnswer SoundEnd := by
  rw [Process.value, Process.Meets]
  exact SoundEnd.of_ok _

theorem Process.meets_sound_fail {e : RunError} (h : e.Sound) :
    (Process.fail e).Meets anyAnswer SoundEnd := by
  rw [Process.fail, Process.Meets]
  exact SoundEnd.of_error h

theorem Site.meets_sound_fail {payload : Json} {cause : RunError} (h : cause.Sound) :
    (site.fail payload cause).Meets anyAnswer SoundEnd :=
  Process.meets_sound_fail (RunError.sound_failedAt h)

theorem Site.meets_sound_activity (payload : Json) (e : ActivityError) :
    (site.fail payload (.activity e)).Meets anyAnswer SoundEnd :=
  Site.meets_sound_fail (RunError.sound_of_chain_eq rfl (by rintro ⟨⟩))

theorem Site.meets_sound_dispatch (activity : String) (payload : Json) :
    (site.dispatch activity payload).Meets anyAnswer SoundEnd := by
  rw [Site.dispatch, Process.single, Process.Meets]
  rintro (e | v) -
  · exact Process.meets_sound_fail (RunError.sound_of_chain_eq rfl (by rintro ⟨⟩))
  · exact Process.meets_sound_value v

theorem Site.meets_sound_repeatCalls (activity : String) (n : Nat) (payload : Json) :
    (site.repeatCalls activity n payload).Meets anyAnswer SoundEnd := by
  induction n generalizing payload with
  | zero => exact Process.meets_sound_value payload
  | succ n ih =>
    rw [Site.repeatCalls, Process.Meets]
    rintro (e | v) -
    · exact Site.meets_sound_activity payload e
    · exact ih v

theorem Site.meets_sound_loopCalls (activity : String) (payload : Json) (elements : List Json) :
    (site.loopCalls activity payload elements).Meets anyAnswer SoundEnd := by
  induction elements with
  | nil => exact Process.meets_sound_value payload
  | cons element rest ih =>
    rw [Site.loopCalls, Process.Meets]
    rintro (e | v) -
    · exact Site.meets_sound_activity payload e
    · exact ih

theorem MapState.meets_sound (hSite : site.Sound) {m : MapState} {name : String}
    (hValid : (State.map m).validate name = .ok ()) (payload : Json) :
    (m.transition site limits payload).Meets anyAnswer SoundEnd := by
  rw [MapState.transition]
  cases hInputs : m.inputs payload with
  | error e => exact Site.meets_sound_fail (MapState.inputs_ofPayload hInputs).sound
  | ok inputs =>
    refine Process.meets_fork_of_forall (P := SoundEnd) ?_ ?_ ?_
    · intro p hp
      obtain ⟨input, -, rfl⟩ := List.mem_map.mp hp
      cases hBody : m.body with
      | activity activity => exact Site.meets_sound_dispatch activity input
      | workflow w => exact hSite w input (State.Enters.validate (.body hBody) hValid)
    · exact fun e he => Site.meets_sound_fail (he e rfl)
    · intro os _
      dsimp only
      split
      · exact Process.meets_sound_value _
      · exact Site.meets_sound_fail (RunError.sound_of_chain_eq rfl (by rintro ⟨⟩))

/-- The strands of a valid branch fail soundly, and if it has none, that is for a sound cause. -/
theorem Branch.plan_sound (hSite : site.Sound) {b : Branch} {name : String}
    (hValid : b.validate name = .ok ()) (payload : Json) :
    match b.plan site payload with
    | .ok plan => ∀ p ∈ plan.strands, p.Meets anyAnswer SoundEnd
    | .error e => e.Sound := by
  have hWorkflow := (Branch.validate_eq_ok_iff.mp hValid).1
  unfold Branch.plan
  rcases Branch.rootState?_of_validate hValid with ⟨t, hRoot⟩ | ⟨m, activity, hRoot, hBody⟩
  · rw [hRoot]
    simp only [List.mem_singleton, forall_eq]
    cases t.next with
    | none => exact Site.meets_sound_dispatch _ _
    | some next => exact hSite _ _ hWorkflow
  · rw [hRoot]
    simp only [hBody]
    cases hInputs : m.inputs payload with
    | error e => exact (MapState.inputs_ofPayload hInputs).sound
    | ok inputs =>
      simp only [bind, Except.bind, pure, Except.pure, List.mem_map, forall_exists_index, and_imp,
        forall_apply_eq_imp_iff₂]
      intro input _
      cases hElement : b.elementWorkflow with
      | none => exact Site.meets_sound_dispatch _ _
      | some w => exact hSite w input (Branch.validate_elementWorkflow hWorkflow hElement)

theorem branchPlans_sound (hSite : site.Sound) {branches : List Branch} {name : String}
    (hValid : ∀ b ∈ branches, b.validate name = .ok ()) (payload : Json) :
    match branchPlans site payload branches with
    | .ok plans => ∀ plan ∈ plans, ∀ p ∈ plan.strands, p.Meets anyAnswer SoundEnd
    | .error e => e.Sound := by
  induction branches with
  | nil => simp [branchPlans]
  | cons b rest ih =>
    have hHead := Branch.plan_sound hSite (hValid b List.mem_cons_self) payload
    have hRest := ih fun c hc => hValid c (List.mem_cons_of_mem _ hc)
    rw [branchPlans]
    cases hPlan : b.plan site payload with
    | error e =>
      rw [hPlan] at hHead
      exact hHead
    | ok plan =>
      rw [hPlan] at hHead
      cases hPlans : branchPlans site payload rest with
      | error e =>
        rw [hPlans] at hRest
        exact hRest
      | ok plans =>
        rw [hPlans] at hRest
        exact List.forall_mem_cons.mpr ⟨hHead, hRest⟩

theorem ParallelState.meets_sound (hSite : site.Sound) {p : ParallelState} {name : String}
    (hValid : (State.parallel p).validate name = .ok ()) (payload : Json) :
    (p.transition site payload).Meets anyAnswer SoundEnd := by
  have hPlans := branchPlans_sound hSite (State.validate_parallel_eq_ok_iff.mp hValid).2.1 payload
  rw [ParallelState.transition]
  cases hOk : branchPlans site payload p.branches with
  | error e =>
    rw [hOk] at hPlans
    exact Site.meets_sound_fail hPlans
  | ok plans =>
    rw [hOk] at hPlans
    refine Process.meets_fork_of_forall (P := SoundEnd) ?_ ?_ ?_
    · intro q hq
      obtain ⟨plan, hPlan, hq⟩ := List.mem_flatMap.mp hq
      exact hPlans plan hPlan q hq
    · exact fun e he => Site.meets_sound_fail (he e rfl)
    · exact fun os _ => Process.meets_sound_value _

/-- What a valid state does fails soundly. -/
theorem State.meets_sound (hSite : site.Sound) {s : State} {name : String}
    (hValid : s.validate name = .ok ()) (payload : Json) :
    (s.transition site limits payload).Meets anyAnswer SoundEnd := by
  cases s with
  | task t => exact Site.meets_sound_repeatCalls _ _ _
  | switch sw => exact Process.meets_sound_value _
  | map m => exact MapState.meets_sound hSite hValid payload
  | «repeat» r => exact Site.meets_sound_repeatCalls _ _ _
  | loop l =>
    rw [State.transition]
    split
    · rename_i hArray
      exact Site.meets_sound_fail (arrayAt_ofPayload hArray).sound
    · exact Site.meets_sound_loopCalls _ _ _
  | parallel p => exact ParallelState.meets_sound hSite hValid payload

/-! ## Walks and runs -/

/-- From a declared state on, a valid workflow fails soundly. -/
theorem Workflow.walk_meets_sound (fuel : Nat) :
    ∀ {ctx : Context} {w : Workflow} {name : String} (payload : Json) (visited : List String),
      w.validate = .ok () → name ∈ Entries.keys w.states →
      (w.walk limits fuel ctx name payload visited).Meets anyAnswer SoundEnd := by
  -- A valid workflow declares where its states go on to, so the walk never leaves its states.
  induction fuel with
  | zero =>
    intro ctx w name payload visited _ _
    rw [Workflow.walk, Process.Meets]
    trivial
  | succ fuel ih =>
    intro ctx w name payload visited hValid hDeclared
    have hSite : (ctx.siteAt limits fuel name).Sound := by
      intro inner input hInner
      change (ctx.enter limits fuel inner input).Meets anyAnswer SoundEnd
      unfold Context.enter
      split
      · exact Process.meets_sound_fail (RunError.sound_of_chain_eq rfl (by rintro ⟨⟩))
      · exact ih input [] hInner (Workflow.validate_eq_ok_iff.mp hInner).1
    obtain ⟨s, hState⟩ := Workflow.exists_state hDeclared
    obtain ⟨hTargets, hInside⟩ :=
      (Workflow.validate_eq_ok_iff.mp hValid).2 name s (Workflow.mem_states hState)
    rw [Workflow.walk_succ, hState]
    dsimp only
    cases hNext : s.successor payload with
    | error e => exact Site.meets_sound_fail (State.successor_ofPayload hNext).sound
    | ok next =>
      refine Process.Meets.andThen (fun o _ => ?_) (fun e he => he)
        (State.meets_sound hSite hInside payload)
      cases next with
      | none =>
        rw [Process.Meets]
        exact SoundEnd.of_ok _
      | some next => exact ih o.payload _ hValid (hTargets next (State.successor_mem hNext))

end Transition

/-- Whatever the caller answers and however far a run of a valid workflow may go, the workflow
itself is not at fault when it fails; and the workflows that it enters are valid. -/
theorem Workflow.run_sound {w : Workflow} (hValid : w.validate = .ok ()) :
    (∀ (limits : Limits) (caller : Caller) (fuel : Nat) (requestId : String) (payload : Json)
      (e : Execution) (err : RunError), w.run limits caller fuel requestId payload = some e →
      e.result = .error err → ∀ cause ∈ err.chain, ¬ cause.BlamesWorkflow) ∧
    ∀ v, w.Reaches v → v.validate = .ok () := by
  refine ⟨fun limits caller fuel requestId payload e err hRun hError => ?_,
    fun v hReaches => hReaches.validate hValid⟩
  have hMeets : (w.process limits fuel requestId payload).Meets anyAnswer SoundEnd :=
    Workflow.walk_meets_sound fuel payload [] hValid (Workflow.validate_eq_ok_iff.mp hValid).1
  exact Workflow.run_meets (fun _ _ => trivial) hMeets hRun err hError

/-- A parallel state with one branch, which starts with a map and goes on with a task. -/
def mappedBranch : Workflow :=
  ⟨"p", [("p", .parallel ⟨[⟨none, ⟨"m", [("m", .map ⟨.activity "f", "xs", none, none, some "t"⟩),
    ("t", .task ⟨"g", none⟩)]⟩⟩], none⟩)]⟩

/-- Whatever goes wrong in that branch, the workflow derived for its elements is not at fault. -/
theorem Workflow.run_sound_mappedBranch :
    mappedBranch.validate = .ok () ∧
      (∀ caller e err,
        mappedBranch.run ⟨4, some 10, none⟩ caller 9 "r" (.obj [("xs", .null)]) = some e →
        e.result = .error err → ∀ cause ∈ err.chain, ¬ cause.BlamesWorkflow) ∧
      (Workflow.mk "m" [("m", .task ⟨"f", some "t"⟩), ("t", .task ⟨"g", none⟩)]).validate =
        .ok () := by
  have hValid : mappedBranch.validate = .ok () := rfl
  obtain ⟨hRuns, hLevels⟩ := Workflow.run_sound hValid
  refine ⟨hValid, fun caller => hRuns _ caller _ _ _, hLevels _ ?_⟩
  exact .enter (.refl _) List.mem_cons_self (.element List.mem_cons_self rfl)

end Orchestration
