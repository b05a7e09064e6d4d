import Orchestration.Proofs.Run.AtRest
import Orchestration.Proofs.Run.Order
import Orchestration.Proofs.Run.Parts

/-!
# How many elements are in flight

`Workflow.Moment` lists what is under way between the answers of a run, for any delays of its calls.

* `Workflow.mapLimits_of_moment`: at every moment, what is under way are runs of states, and a map
  that runs as a state keeps to the limit that it declares.
* A map at the root of a branch starts all its elements at once, whatever limit it declares
  (`Workflow.not_honoursMapLimits_oneAtATimeBranch`).
-/

namespace Orchestration

variable {env : Environment} {limits : Limits} {site : Site}

/-! ## What is under way inside a strand -/

/-- The strands under way side by side. -/
def Strand.parts : Strand → List Strand
  | .together active _ => active
  | .window _ _ active _ _ => active
  | .ended _ | .waiting _ _ _ _ | .exhausted => []

/-- What was not started yet for want of room. -/
def Strand.queued : Strand → List Process
  | .window _ _ _ queue _ => queue
  | .ended _ | .waiting _ _ _ _ | .together _ _ | .exhausted => []

/-- The strand waits for strands inside it. -/
def Strand.isForked : Strand → Bool
  | .together _ _ | .window _ _ _ _ _ => true
  | .ended _ | .waiting _ _ _ _ | .exhausted => false

/-- The strand itself, its parts, their parts, and so on inwards. -/
inductive Strand.Inside : Strand → Strand → Prop
  | refl (s : Strand) : s.Inside s
  | part {t u s : Strand} (hPart : u ∈ s.parts) (h : t.Inside u) : t.Inside s

/-- How far the strand at a place has come, from its start until its result is delivered. -/
def Strand.at? : Strand → Nat → Option Strand
  | .together active _, place => active[place]?
  | .window _ delivered active _ _, place =>
    if place < delivered.length then none else active[place - delivered.length]?
  | .ended _, _ | .waiting _ _ _ _, _ | .exhausted, _ => none

/-- The strand at a place was started and has not finished. -/
def Strand.isInFlight (s : Strand) (place : Nat) : Bool :=
  match s.at? place with
  | none | some (.ended _) => false
  | some _ => true

/-- How many of the strands at these places are in flight. -/
def Strand.inFlight (s : Strand) (places : List Nat) : Nat := places.countP s.isInFlight

/-- Different places hold different parts. -/
theorem Strand.inFlight_le_parts {s : Strand} {places : List Nat} (hNodup : places.Nodup) :
    s.inFlight places ≤ s.parts.length := by
  have hBound : ∀ base, (∀ i, s.isInFlight i = true → base ≤ i ∧ i < base + s.parts.length) →
      s.inFlight places ≤ s.parts.length := by
    intro base hPlaces
    have hSubset : places.filter s.isInFlight ⊆ List.range' base s.parts.length := by
      intro i hi
      have hRange := hPlaces i (List.mem_filter.mp hi).2
      exact List.mem_range'_1.mpr hRange
    have hCount := ((hNodup.filter s.isInFlight).subperm hSubset).length_le
    rwa [← List.countP_eq_length_filter, List.length_range'] at hCount
  cases s with
  | together active next =>
    refine hBound 0 fun i hi => ?_
    have hSome : i < active.length := by
      by_contra hOut
      simp [isInFlight, at?, List.getElem?_eq_none (Nat.le_of_not_lt hOut)] at hi
    simpa [parts] using hSome
  | window limit delivered active queue next =>
    refine hBound delivered.length fun i hi => ?_
    have hIn : ¬ i < delivered.length := by
      intro hOut
      simp [isInFlight, at?, hOut] at hi
    have hSome : i - delivered.length < active.length := by
      by_contra hOut
      simp [isInFlight, at?, hIn, List.getElem?_eq_none (Nat.le_of_not_lt hOut)] at hi
    simp only [parts]
    omega
  | ended _ => exact hBound 0 fun i hi => by simp [isInFlight, at?] at hi
  | waiting _ _ _ _ => exact hBound 0 fun i hi => by simp [isInFlight, at?] at hi
  | exhausted => exact hBound 0 fun i hi => by simp [isInFlight, at?] at hi

/-- What is under way inside is what became of some process. -/
theorem Process.becomes_of_inside {s t : Strand} (h : t.Inside s) :
    ∀ {p : Process}, p.Becomes env s → ∃ q : Process, q.Becomes env t := by
  induction h with
  | refl => exact fun hs => ⟨_, hs⟩
  | part hPart _ ih =>
    intro p hs
    cases Process.rests_of_becomes hs with
    | together _ hForks | window _ hForks _ _ =>
      obtain ⟨past, present, -, -, hPresent⟩ := hForks
      obtain ⟨q, -, hq⟩ := exists_of_forall₂ hPresent.flip hPart
      exact ih hq
    | _ => simp [Strand.parts] at hPart

/-! ## Runs of states -/

/-- The strand is a fork of these strands under way. -/
inductive Strand.IsFork (env : Environment) : Width → List Process → Strand → Prop
  | together {strands : List Process} {active : List Strand} (h : Forks env strands [] active [])
    (next : Except RunError (List Outcome) → Process) :
      IsFork env .all strands (.together active next)
  | window {strands queue : List Process} {delivered : List Outcome} {active : List Strand}
    (h : Forks env strands delivered active queue) (limit : Nat)
    (next : Except RunError (List Outcome) → Process) :
    IsFork env (.window limit) strands (.window limit delivered active queue next)

/-- The strand is a run of the state under way. -/
def State.Executes (env : Environment) (limits : Limits) (site : Site) (s : State) (payload : Json)
    (t : Strand) : Prop :=
  ∃ width strands next, s.transition site limits payload = .fork width strands next ∧
    t.IsFork env width strands

/-- The strand is a run of the map as a state, with its elements at these places. -/
inductive MapState.RunsAsState (env : Environment) (limits : Limits) (m : MapState) (t : Strand) :
    List Nat → Prop
  | intro {site : Site} {payload : Json} {inputs : List Json}
    (hInputs : m.inputs payload = .ok inputs)
    (hRun : (State.map m).Executes env limits site payload t) :
    m.RunsAsState env limits t (List.range inputs.length)

/-- The strand is a run of a parallel state with a branch that starts with the map. Its elements
stand after the strands of the branches before. -/
inductive MapState.RunsAsRoot (env : Environment) (limits : Limits) (m : MapState) (t : Strand) :
    List Nat → Prop
  | intro {site : Site} {payload : Json} {p : ParallelState} {before after : List Branch}
    {b : Branch} {plans : List BranchPlan} {plan : BranchPlan}
      (hBranches : p.branches = before ++ b :: after)
    (hRoot : b.workflow.rootState? = some (.map m))
    (hBefore : branchPlans site payload before = .ok plans)
    (hPlan : b.plan site payload = .ok plan)
    (hRun : (State.parallel p).Executes env limits site payload t) :
    m.RunsAsRoot env limits t
      (List.range' (plans.flatMap BranchPlan.strands).length plan.strands.length)

/-- A serial process comes to nothing else than serial processes. -/
theorem Process.Serial.of_comesTo {p q : Process} (h : p.Serial)
    (hComes : p.ComesTo q) : q.Serial := by
  induction hComes with
  | refl => exact h
  | tail _ hStep ih =>
    cases hStep with
    | call r next answer => exact ih.next answer
    | fork width strands next result => exact ih.elim

/-- The only fork of a process that forks and then goes on without is its first. -/
theorem Process.ComesTo.eq_of_fork {width width' : Width} {strands strands' : List Process}
    {next next' : Except RunError (List Outcome) → Process} (hNext : ∀ r, (next r).Serial)
    (h : (Process.fork width strands next).ComesTo (.fork width' strands' next')) :
    Process.fork width strands next = .fork width' strands' next' := by
  rcases Relation.ReflTransGen.cases_head h with hEq | ⟨q, hStep, hRest⟩
  · exact hEq
  · cases hStep with
    | fork _ _ _ result => exact ((hNext result).of_comesTo hRest).elim

theorem MapState.transition_comesTo_fork {m : MapState} {payload : Json} {width : Width}
    {strands : List Process} {next : Except RunError (List Outcome) → Process}
    (h : (m.transition site limits payload).ComesTo (.fork width strands next)) :
    m.transition site limits payload = .fork width strands next := by
  revert h
  rw [MapState.transition]
  cases m.inputs payload with
  | error e => exact fun h => ((Site.serial_fail payload e).of_comesTo h).elim
  | ok inputs =>
    refine Process.ComesTo.eq_of_fork fun r => ?_
    cases r with
    | error e => exact Site.serial_fail payload e
    | ok results =>
      dsimp only
      split
      · exact Process.serial_value _
      · exact Site.serial_fail payload _

theorem ParallelState.transition_comesTo_fork {p : ParallelState} {payload : Json} {width : Width}
    {strands : List Process} {next : Except RunError (List Outcome) → Process}
    (h : (p.transition site payload).ComesTo (.fork width strands next)) :
    p.transition site payload = .fork width strands next := by
  revert h
  rw [ParallelState.transition]
  cases branchPlans site payload p.branches with
  | error e => exact fun h => ((Site.serial_fail payload e).of_comesTo h).elim
  | ok plans =>
    refine Process.ComesTo.eq_of_fork fun r => ?_
    cases r with
    | error e => exact Site.serial_fail payload e
    | ok results => exact Process.serial_value _

/-- A state forks at once or not at all. -/
theorem State.transition_comesTo_fork {s : State} {payload : Json} {width : Width}
    {strands : List Process} {next : Except RunError (List Outcome) → Process}
    (h : (s.transition site limits payload).ComesTo (.fork width strands next)) :
    s.transition site limits payload = .fork width strands next := by
  by_cases hSequential : s.Sequential
  · exact ((hSequential.serial_transition payload).of_comesTo h).elim
  · cases s with
    | map m => exact MapState.transition_comesTo_fork h
    | parallel p => exact ParallelState.transition_comesTo_fork h
    | task _ | switch _ | «repeat» _ | loop _ => simp [State.Sequential, State.kind] at hSequential

/-- The strands of a fork of a state are calls, or workflows one level deeper. -/
theorem State.part_of_transition {s : State} {payload : Json} {width : Width}
    {strands : List Process} {next : Except RunError (List Outcome) → Process}
    (h : s.transition site limits payload = .fork width strands next) :
    ∀ q ∈ strands, s.Part site q := by
  by_cases hSequential : s.Sequential
  · have hSerial : (s.transition site limits payload).Serial :=
      hSequential.serial_transition payload
    rw [h] at hSerial
    exact hSerial.elim
  · cases s with
    | map m =>
      rw [State.transition, MapState.transition] at h
      cases hInputs : m.inputs payload with
      | error e =>
        rw [hInputs] at h
        cases h
      | ok inputs =>
        rw [hInputs] at h
        cases h
        intro q hq
        obtain ⟨input, -, rfl⟩ := List.mem_map.mp hq
        exact MapState.part_process m input
    | parallel p =>
      rw [State.transition, ParallelState.transition] at h
      cases hPlans : branchPlans site payload p.branches with
      | error e =>
        rw [hPlans] at h
        cases h
      | ok plans =>
        rw [hPlans] at h
        cases h
        exact ParallelState.part_of_branchPlans hPlans
    | task _ | switch _ | «repeat» _ | loop _ => simp [State.Sequential, State.kind] at hSequential

/-! ## Runs of workflows -/

/-- The process walks a level of the workflow, or does not fork. -/
def Process.OfLevel (limits : Limits) (w : Workflow) (p : Process) : Prop :=
  p.Serial ∨ ∃ fuel ctx v name payload visited, w.Reaches v ∧
    p = v.walk limits fuel ctx name payload visited

/-- The fork that a walk comes to is that of one of the states. -/
theorem Workflow.walk_comesTo_fork {w : Workflow} {ctx : Context} {width : Width}
    {strands : List Process} {next : Except RunError (List Outcome) → Process} {fuel : Nat} :
    ∀ {name : String} {payload : Json} {visited : List String},
      (w.walk limits fuel ctx name payload visited).ComesTo (.fork width strands next) →
      ∃ name s payload fuel next', w.state? name = some s ∧
        s.transition (ctx.siteAt limits fuel name) limits payload = .fork width strands next' := by
  -- Along the walk: the fork is one of the state at which it stands, or of a state after that one.
  induction fuel with
  | zero =>
    intro name payload visited h
    have hSerial : (w.walk limits 0 ctx name payload visited).Serial := by
      rw [Workflow.walk, Process.Serial]
      trivial
    exact (hSerial.of_comesTo h).elim
  | succ fuel ih =>
    intro name payload visited h
    rw [Workflow.walk_succ] at h
    split at h
    · exact ((Process.serial_fail _).of_comesTo h).elim
    · rename_i s hState
      split at h
      · exact ((Site.serial_fail _ _).of_comesTo h).elim
      · rcases h.fork_of_andThen with ⟨next', hFork⟩ | ⟨o, -, hRest⟩
        · exact ⟨name, s, payload, fuel, next', hState, State.transition_comesTo_fork hFork⟩
        · split at hRest
          · have hDone : (Process.done (.ok ⟨o.payload, (name :: visited).reverse⟩)).Serial := by
              rw [Process.Serial]
              trivial
            exact (hDone.of_comesTo hRest).elim
          · exact ih hRest

/-- Workflows that a state of a level runs are levels. -/
theorem Process.OfLevel.of_part {w v : Workflow} {ctx : Context} {fuel : Nat} {name : String}
    {s : State} (hReaches : w.Reaches v) (hState : v.state? name = some s) {q : Process}
    (h : s.Part (ctx.siteAt limits fuel name) q) : q.OfLevel limits w := by
  cases h with
  | call activity input =>
    refine .inl ?_
    rw [Site.dispatch, Process.single, Process.Serial]
    exact ⟨fun v => Process.serial_value v, fun e => ⟨_, rfl⟩⟩
  | @enter u hNests input =>
    have hInner : w.Reaches u := .enter hReaches (Workflow.mem_states hState) hNests.enters
    change (ctx.enter limits fuel u input).OfLevel limits w
    unfold Context.enter
    split
    · exact .inl (Process.serial_fail _)
    · exact .inr ⟨_, _, _, _, _, _, hInner, rfl⟩

/-- A level that waits for strands inside is at the fork of one of its states. -/
theorem Process.OfLevel.exists_execution {w : Workflow} {p : Process} (hLevel : p.OfLevel limits w)
    {s : Strand} (hs : p.Becomes env s) (hForked : s.isForked = true) :
    ∃ v name state site payload, w.Reaches v ∧ v.state? name = some state ∧
      state.Executes env limits site payload s ∧
      ∀ u ∈ s.parts, ∃ q : Process, q.OfLevel limits w ∧ q.Becomes env u := by
  have hRun : ∀ {width strands next delivered queue}, p.ComesTo (.fork width strands next) →
      s.IsFork env width strands → Forks env strands delivered s.parts queue →
      ∃ v name state site payload, w.Reaches v ∧ v.state? name = some state ∧
        state.Executes env limits site payload s ∧
        ∀ u ∈ s.parts, ∃ q : Process, q.OfLevel limits w ∧ q.Becomes env u := by
    intro width strands next delivered queue hComes hFork hForks
    rcases hLevel with hSerial | ⟨fuel, ctx, v, name, payload, visited, hReaches, rfl⟩
    · exact (hSerial.of_comesTo hComes).elim
    · -- The strands of the fork of a state are parts of it, and so they are of a level again.
      obtain ⟨name, state, payload, fuel, next', hState, hTransition⟩ :=
        Workflow.walk_comesTo_fork hComes
      refine ⟨v, name, state, _, payload, hReaches, hState, ⟨_, _, _, hTransition, hFork⟩, ?_⟩
      intro u hu
      obtain ⟨past, present, hStrands, -, hPresent⟩ := hForks
      obtain ⟨q, hq, hBecomes⟩ := exists_of_forall₂ hPresent.flip hu
      have hMem : q ∈ strands := by
        rw [hStrands]
        exact List.mem_append_right _ (List.mem_append_left _ hq)
      exact ⟨q, .of_part hReaches hState (State.part_of_transition hTransition q hMem), hBecomes⟩
  cases Process.rests_of_becomes hs with
  | together hComes hForks => exact hRun hComes (.together hForks _) hForks
  | window hComes hForks _ _ => exact hRun hComes (.window hForks _ _) hForks
  | _ => simp [Strand.isForked] at hForked

/-- All that waits for strands inside a level are runs of states. -/
theorem Process.OfLevel.inside {w : Workflow} {s t : Strand} (h : t.Inside s) :
    ∀ {p : Process}, p.OfLevel limits w → p.Becomes env s → t.isForked = true →
      ∃ v name state site payload, w.Reaches v ∧ v.state? name = some state ∧
        state.Executes env limits site payload t := by
  induction h with
  | refl =>
    intro p hLevel hs hForked
    obtain ⟨v, name, state, site, payload, hReaches, hState, hRun, -⟩ :=
      hLevel.exists_execution hs hForked
    exact ⟨v, name, state, site, payload, hReaches, hState, hRun⟩
  | @part u s hPart _ ih =>
    intro p hLevel hs hForked
    have hOuter : s.isForked = true := by
      cases s <;> simp_all [Strand.isForked, Strand.parts]
    obtain ⟨_, _, _, _, _, _, _, _, hParts⟩ := hLevel.exists_execution hs hOuter
    obtain ⟨q, hq, hu⟩ := hParts u hPart
    exact ih hq hu hForked

/-! ## Limits -/

/-- A run of a map as a state has no more elements in flight than the map declares. -/
theorem MapState.RunsAsState.inFlight_le {m : MapState} {t : Strand} {places : List Nat} {n : Nat}
    {p : Process} (h : m.RunsAsState env limits t places) (ht : p.Becomes env t)
    (hLimit : m.maxConcurrency = some n) (hPositive : n ≠ 0) : t.inFlight places ≤ n := by
  obtain @⟨site, payload, inputs, hInputs, width, strands, next, hTransition, hFork⟩ := h
  have hWidth : width = .window n := by
    rw [State.transition, MapState.transition, hInputs] at hTransition
    cases hTransition
    rw [MapState.window, hLimit]
    simp only [Option.or, Option.getD, Width.window.injEq]
    omega
  have hParts := Strand.inFlight_le_parts (s := t) (List.nodup_range (n := inputs.length))
  subst hWidth
  cases hFork with
  | window _ _ next' =>
    cases Process.rests_of_becomes ht with
    | window _ _ hRoom _ => exact Nat.le_trans hParts hRoom

/-- A parallel state starts everything at once. -/
theorem ParallelState.queued_eq_nil {p : ParallelState} {payload : Json} {t : Strand} {q : Process}
    (h : (State.parallel p).Executes env limits site payload t) (ht : q.Becomes env t) :
    t.queued = [] := by
  obtain ⟨width, strands, next, hTransition, hFork⟩ := h
  have hWidth : width = parallelWidth strands.length := by
    rw [State.transition, ParallelState.transition] at hTransition
    split at hTransition
    · cases hTransition
    · cases hTransition
      rfl
  cases hFork with
  | together hForks next' => rfl
  | @window strands queue delivered active hForks limit next' =>
    have hLimit : limit = strands.length := by
      rw [parallelWidth] at hWidth
      split at hWidth
      · cases hWidth
      · exact Width.window.inj hWidth
    obtain ⟨past, present, rfl, -, hPresent⟩ := hForks
    have hActive := hPresent.length_eq
    cases Process.rests_of_becomes ht with
    | window _ _ _ hFull =>
      rcases hFull with hNone | hFull
      · exact hNone
      · -- The window has room for all strands of the parallel state, so a full one leaves none out.
        simp only [List.length_append] at hLimit
        have hNone : queue.length = 0 := by omega
        exact List.length_eq_zero_iff.mp hNone

/-! ## Moments of runs -/

/-- What is under way at a moment of a run: after its start, and after each time
when answers are due. -/
inductive Workflow.Moment (w : Workflow) (limits : Limits) (caller : Caller) (fuel : Nat)
    (requestId : String) (payload : Json) : Strand → World → Prop
  | start {s : Strand} {world : World}
    (h : (w.process limits fuel requestId payload).start ⟨caller, limits.activityTimeout⟩ ⟨0, []⟩ =
      (s, world)) : w.Moment limits caller fuel requestId payload s world
  | later {s s' : Strand} {world world' : World} {due : Nat}
    (h : w.Moment limits caller fuel requestId payload s world) (hDue : s.nextDue = some due)
    (hResume : s.resume ⟨caller, limits.activityTimeout⟩ { world with now := due } = (s', world')) :
    w.Moment limits caller fuel requestId payload s' world'

theorem Workflow.Moment.becomes {w : Workflow} {caller : Caller} {fuel : Nat} {requestId : String}
    {payload : Json} {s : Strand} {world : World}
    (h : w.Moment limits caller fuel requestId payload s world) :
    (w.process limits fuel requestId payload).Becomes ⟨caller, limits.activityTimeout⟩ s := by
  induction h with
  | @start s world hStart =>
    have hs : s = (s, world).1 := rfl
    rw [hs, ← hStart]
    exact .start _
  | @later s s' world world' due _ _ hResume ih =>
    have hs : s' = (s', world').1 := rfl
    rw [hs, ← hResume]
    exact .resume ih _

/-- The last moment of a run is its end. -/
theorem Workflow.moment_of_settle {w : Workflow} {caller : Caller} {fuel steps : Nat}
    {requestId : String} {payload : Json} {result : Except RunError Outcome} {world' : World} :
    ∀ {s : Strand} {world : World}, w.Moment limits caller fuel requestId payload s world →
      s.settle ⟨caller, limits.activityTimeout⟩ steps world = some (result, world') →
      w.Moment limits caller fuel requestId payload (.ended result) world' := by
  induction steps with
  | zero =>
    intro s world _ h
    cases h
  | succ steps ih =>
    intro s world hMoment h
    rcases Strand.settle_succ_eq_some.mp h with ⟨rfl, rfl⟩ | ⟨due, hDue, hRest⟩
    · exact hMoment
    · exact ih (.later hMoment hDue rfl) hRest

/-- A run goes from moment to moment up to its end. -/
theorem Workflow.moment_of_run {w : Workflow} {caller : Caller} {fuel : Nat} {requestId : String}
    {payload : Json} {e : Execution} (h : w.run limits caller fuel requestId payload = some e) :
    ∃ world, w.Moment limits caller fuel requestId payload (.ended e.result) world := by
  unfold Workflow.run at h
  obtain ⟨⟨result, world⟩, hSettle, rfl⟩ := Option.map_eq_some_iff.mp h
  exact ⟨world, Workflow.moment_of_settle (.start rfl) hSettle⟩

/-- At every moment of every run of a valid workflow, what waits for strands inside is a run of a
state, and no more elements of a map that runs as a state are in flight than the map declares.
The elements of a map at the root of a branch all start at once, so there may be as many in
flight as there are elements. -/
theorem Workflow.mapLimits_of_moment {w : Workflow} {caller : Caller} {fuel : Nat}
    {requestId : String} {payload : Json} {s : Strand} {world : World}
    (hValid : w.validate = .ok ())
    (hMoment : w.Moment limits caller fuel requestId payload s world) :
    ∀ t : Strand, t.Inside s →
      (t.isForked = true → ∃ v name state site input, w.Reaches v ∧ v.state? name = some state ∧
        state.Executes ⟨caller, limits.activityTimeout⟩ limits site input t) ∧
      (∀ v name m n places, w.Reaches v → v.state? name = some (.map m) →
        m.maxConcurrency = some n →
        m.RunsAsState ⟨caller, limits.activityTimeout⟩ limits t places → t.inFlight places ≤ n) ∧
      ∀ (m : MapState) places, m.RunsAsRoot ⟨caller, limits.activityTimeout⟩ limits t places →
        t.queued = [] ∧ t.inFlight places ≤ places.length := by
  intro t hInside
  have hBecomes := hMoment.becomes
  obtain ⟨q, ht⟩ := Process.becomes_of_inside hInside hBecomes
  refine ⟨fun hForked => ?_, ?_, ?_⟩
  · have hLevel : (w.process limits fuel requestId payload).OfLevel limits w :=
      .inr ⟨_, _, _, _, _, _, .refl w, rfl⟩
    exact hLevel.inside hInside hBecomes hForked
  · intro v name m n places hReaches hState hLimit hRun
    have hLevel := Workflow.validate_eq_ok_iff.mp (hReaches.validate hValid)
    have hMap := State.validate_map_eq_ok_iff.mp (hLevel.2 _ _ (Workflow.mem_states hState)).2
    refine hRun.inFlight_le ht hLimit fun hZero => ?_
    exact hMap.1 (hZero ▸ hLimit)
  · rintro m places ⟨-, -, -, -, hRun⟩
    exact ⟨ParallelState.queued_eq_nil hRun ht, List.countP_le_length⟩

/-- Answers each call with its payload, after some time. -/
def delayedEcho (delay : Nat) : Caller := fun _ r => ⟨.ok r.payload, delay⟩

/-- A map over `xs` that takes one element at a time. -/
def oneAtATime : MapState := ⟨.activity "f", "xs", none, some 1, none⟩

/-- The map as a state. -/
def oneAtATimeState : Workflow := ⟨"m", [("m", .map oneAtATime)]⟩

/-- The map as the only branch of a parallel state. -/
def oneAtATimeBranch : Workflow := ⟨"p", [("p", .parallel ⟨[⟨some "b", oneAtATimeState⟩], none⟩)]⟩

/-- Two elements for the map. -/
def twoElements : Json := .obj [("xs", .arr [.bool true, .bool false])]

/-- Where the states of these workflows run. -/
def oneAtATimeSite (state : String) : Site := (Context.top "r").siteAt ⟨8, none, none⟩ 4 state

theorem Workflow.mapLimits_of_moment_oneAtATime :
    oneAtATimeState.validate = .ok () ∧ ∃ s world,
      oneAtATimeState.Moment ⟨8, none, none⟩ (delayedEcho 10) 5 "r" twoElements s world ∧
      s.isForked = true ∧ s.queued ≠ [] ∧ s.inFlight [0, 1] ≤ 1 := by
  have hValid : oneAtATimeState.validate = .ok () := by decide
  have hMoment : oneAtATimeState.Moment ⟨8, none, none⟩ (delayedEcho 10) 5 "r" twoElements _ _ :=
    .start rfl
  have hFirst : Forks ⟨delayedEcho 10, none⟩
      [(oneAtATimeSite "m").dispatch "f" (.bool true),
        (oneAtATimeSite "m").dispatch "f" (.bool false)] [] _
      [(oneAtATimeSite "m").dispatch "f" (.bool false)] :=
    ⟨[], [(oneAtATimeSite "m").dispatch "f" (.bool true)], rfl, rfl, .cons (.start ⟨0, []⟩) .nil⟩
  have hInputs : oneAtATime.inputs twoElements = .ok [.bool true, .bool false] := rfl
  have hExecutes : (State.map oneAtATime).Executes ⟨delayedEcho 10, none⟩ ⟨8, none, none⟩
      (oneAtATimeSite "m") twoElements
      ((oneAtATimeState.process ⟨8, none, none⟩ 5 "r" twoElements).start ⟨delayedEcho 10, none⟩
        ⟨0, []⟩).1 :=
    ⟨_, _, _, rfl, .window hFirst 1 _⟩
  have hRun := MapState.RunsAsState.intro hInputs hExecutes
  have hLimits := Workflow.mapLimits_of_moment hValid hMoment _ (.refl _)
  exact ⟨hValid, _, _, hMoment, by decide, by simp [Strand.queued],
    hLimits.2.1 _ "m" _ 1 _ (.refl _) rfl rfl hRun⟩

/-- Wherever a map stands that declares a limit, no more of its elements are in
flight than it declares. -/
def Workflow.HonoursMapLimits (w : Workflow) (limits : Limits) : Prop :=
  ∀ caller fuel requestId payload s world, w.Moment limits caller fuel requestId payload s world →
    ∀ v name m n, w.Reaches v → v.state? name = some (.map m) → m.maxConcurrency = some n →
      ∀ t places, t.Inside s →
        m.RunsAsState ⟨caller, limits.activityTimeout⟩ limits t places ∨
          m.RunsAsRoot ⟨caller, limits.activityTimeout⟩ limits t places → t.inFlight places ≤ n

theorem Workflow.not_honoursMapLimits_oneAtATimeBranch : oneAtATimeBranch.validate = .ok () ∧
    ¬ oneAtATimeBranch.HonoursMapLimits ⟨8, none, none⟩ := by
  refine ⟨by decide, fun hHonours => ?_⟩
  have hMoment : oneAtATimeBranch.Moment ⟨8, none, none⟩ (delayedEcho 10) 5 "r" twoElements _ _ :=
    .start rfl
  have hReaches : oneAtATimeBranch.Reaches oneAtATimeState :=
    .enter (.refl _) List.mem_cons_self (State.Enters.branch (b := ⟨some "b", oneAtATimeState⟩)
      List.mem_cons_self)
  let calls : List Process :=
    [(oneAtATimeSite "p").dispatch "f" (.bool true),
      (oneAtATimeSite "p").dispatch "f" (.bool false)]
  have hBoth : Forks ⟨delayedEcho 10, none⟩ calls [] _ [] :=
    ⟨[], _, rfl, rfl, .cons (.start ⟨0, []⟩) (.cons (.start ⟨0, [⟨"f", .bool true, "r"⟩]⟩) .nil)⟩
  let branch : Branch := ⟨some "b", oneAtATimeState⟩
  have hPlan : branch.plan (oneAtATimeSite "p") twoElements = .ok ⟨"b", true, calls⟩ := rfl
  have hExecutes : (State.parallel ⟨[branch], none⟩).Executes ⟨delayedEcho 10, none⟩ ⟨8, none, none⟩
      (oneAtATimeSite "p") twoElements
      ((oneAtATimeBranch.process ⟨8, none, none⟩ 5 "r" twoElements).start ⟨delayedEcho 10, none⟩
        ⟨0, []⟩).1 :=
    ⟨_, _, _, rfl, .together hBoth _⟩
  have hRun : oneAtATime.RunsAsRoot ⟨delayedEcho 10, none⟩ ⟨8, none, none⟩
      ((oneAtATimeBranch.process ⟨8, none, none⟩ 5 "r" twoElements).start ⟨delayedEcho 10, none⟩
        ⟨0, []⟩).1
      [0, 1] :=
    .intro (List.nil_append [branch]).symm rfl rfl hPlan hExecutes
  have hWithin := hHonours _ _ _ _ _ _ hMoment _ "m" _ 1 hReaches rfl rfl _ _ (.refl _) (.inr hRun)
  exact absurd hWithin (by decide)

end Orchestration
