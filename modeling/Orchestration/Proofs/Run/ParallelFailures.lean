import Orchestration.Proofs.Run.Calls
import Orchestration.Proofs.Run.Sequence
import Orchestration.Proofs.Run.Transitions
import Orchestration.Proofs.Run.Worlds
import Orchestration.Workflow.Validation

/-!
# Failures of parallel states

Which of its calls a parallel state fails with, and when. Up to `watchedStrands` calls the
state fails as soon as one of them does. More of them are delivered in the order in which they
were dispatched, and the state fails with the first in this order that fails, when all calls
in front of it are over.

* `Process.FailsAt`: a process fails at a time, whatever else goes on beside it.
* `Process.StandsAt.of_failure`, `Width.Failure.failsAt`: a fork of calls from moment to
  moment, and up to its failure.
* `ParallelState.Dispatches`: the calls of a parallel state, if each of its strands is one call.
* `ParallelState.failsEarliest_iff`: a parallel state fails with its earliest failure, whatever
  calls succeed beside it, if it has no more calls than are watched, or if this failure is in turn
  when it comes, and only then.
* `Workflow.not_failsEarliest_thirtyOneCalls`: one more call that succeeds, and a
  later failure is reported.
-/

namespace Orchestration

variable {env : Environment} {w : World}

/-! ## Failing at a time -/

/-- How the process stands at a time, started in this world: it has gone on at some times, of which
none was past the time of its next answer. In between others may have made calls. -/
inductive Process.StandsAt (env : Environment) (p : Process) (w : World) : Nat → Strand → Prop
  | start : p.StandsAt env w w.now (p.start env w).1
  | resume {now : Nat} {s : Strand} (h : p.StandsAt env w now s) (w' : World)
    (hLater : now ≤ w'.now) (hDue : ∀ due, s.nextDue = some due → w'.now ≤ due) :
      p.StandsAt env w w'.now (s.resume env w').1

/-- The process ends with this failure at this time. It is under way until then, and
has failed from then on. -/
structure Process.FailsAt (env : Environment) (p : Process) (w : World) (time : Nat)
    (e : RunError) : Prop where
  ends : ∃ w', p.EndsIn env w (.error e) w' ∧ w'.now = time
  stands : ∀ {now : Nat} {s : Strand}, p.StandsAt env w now s →
    now < time ∧ (∀ result, s ≠ .ended result) ∨ time ≤ now ∧ s = .ended (.error e)

theorem Process.FailsAt.unique {p : Process} {time time' : Nat} {e e' : RunError}
    (h : p.FailsAt env w time e) (h' : p.FailsAt env w time' e') : e = e' ∧ time = time' := by
  obtain ⟨⟨w₁, hEnd, rfl⟩, -⟩ := h
  obtain ⟨⟨w₂, hEnd', rfl⟩, -⟩ := h'
  obtain ⟨hResult, rfl⟩ := hEnd.unique hEnd'
  exact ⟨Except.error.inj hResult, rfl⟩

/-! ## Forks of calls -/

section Fork

variable {width : Width} {calls : List Request} {next : Except RunError (List Outcome) → Process}
variable {failure : ActivityError → RunError} {e : ActivityError} {t : Nat}

/-- Until its failure comes, a fork of calls has nothing to report; when it comes,
the fork fails with it. -/
theorem Width.Goes.upTo {since elapsed : Nat} {rs : List Response} {s : Strand}
    (h : width.Goes since elapsed rs next failure s) (hFailure : width.Failure rs e t)
    (hNow : elapsed ≤ t) :
    elapsed < t ∧ width.Underway since elapsed rs next s ∨ t ≤ elapsed ∧
      s = .ended (.error (failure e)) := by
  rcases h with ⟨e', hReports, hEnded⟩ | hUnderway
  · obtain ⟨hLate, hSame⟩ := hFailure.first hReports
    rw [hSame (Nat.le_antisymm hNow hLate)] at hEnded
    exact .inr ⟨hLate, hEnded⟩
  · refine .inl ⟨Nat.lt_of_le_of_ne hNow ?_, hUnderway⟩
    rintro rfl
    exact hUnderway.not_reports e hFailure.reports

/-- The answer that decides is still to come, and nobody waits longer than for it. -/
theorem Width.Underway.exists_nextDue_le {since elapsed : Nat} {rs : List Response} {s : Strand}
    (h : width.Underway since elapsed rs next s) (hFailure : width.Failure rs e t)
    (hBefore : elapsed < t) :
    ∃ due, s.nextDue = some due ∧ due ≤ since + t := by
  obtain ⟨r, hr, rfl⟩ := hFailure.exists_delay
  exact h.exists_nextDue hr hBefore

section Run

variable (hRoom : ∀ limit, width = .window limit → calls.length ≤ limit)
variable (hNext : ∀ e, next (.error (.activity e)) = .fail (failure e))
variable (hFailure : width.Failure (env.responses calls w) e t)

include hRoom hNext hFailure

/-- A fork of calls at a time: it has nothing to report yet, or it has failed. -/
theorem Process.StandsAt.of_failure {now : Nat} {s : Strand}
    (h : (Process.fork width (calls.map .single) next).StandsAt env w now s) :
    ∃ elapsed, now = w.now + elapsed ∧
      (elapsed < t ∧ width.Underway w.now elapsed (env.responses calls w) next s ∨
        t ≤ elapsed ∧ s = .ended (.error (failure e))) := by
  have hFails := hFailure.exists_fails
  induction h with
  | start =>
    exact ⟨0, rfl, (Width.start_calls calls hRoom hFails hNext).upTo hFailure (Nat.zero_le t)⟩
  | @resume now s _ w' hLater hDue ih =>
    obtain ⟨earlier, rfl, hStands⟩ := ih
    obtain ⟨elapsed, hNow⟩ :=
      Nat.exists_eq_add_of_le (Nat.le_trans (Nat.le_add_right w.now earlier) hLater)
    refine ⟨elapsed, hNow, ?_⟩
    rcases hStands with ⟨hBefore, hUnderway⟩ | ⟨hAfter, rfl⟩
    · obtain ⟨due, hNextDue, hSoon⟩ := hUnderway.exists_nextDue_le hFailure hBefore
      have hWithin := hDue due hNextDue
      exact (hUnderway.resume (by omega) hNow hFails hNext).upTo hFailure (by omega)
    · rw [Strand.resume]
      exact .inr ⟨by omega, rfl⟩

/-- A fork of calls settles when its failure comes. -/
theorem Process.StandsAt.exists_settle (remaining : Nat) :
    ∀ (s : Strand) (w' : World),
    (Process.fork width (calls.map .single) next).StandsAt env w w'.now s →
      w'.now ≤ w.now + t → w.now + t ≤ w'.now + remaining →
      ∃ steps w'', s.settle env steps w' = some (.error (failure e), w'') ∧
      w''.now = w.now + t := by
  induction remaining with
  | zero =>
    intro s w' h hNow hEnd
    obtain ⟨elapsed, hElapsed, ⟨hBefore, -⟩ | ⟨-, rfl⟩⟩ := h.of_failure hRoom hNext hFailure
    · omega
    · exact ⟨1, w', rfl, by omega⟩
  | succ remaining ih =>
    intro s w' h hNow hEnd
    obtain ⟨elapsed, hElapsed, ⟨hBefore, hUnderway⟩ | ⟨hAfter, rfl⟩⟩ :=
      h.of_failure hRoom hNext hFailure
    · -- Time passes up to the next answer, which comes before the failure or with it.
      obtain ⟨due, hDue, hSoon⟩ := hUnderway.exists_nextDue_le hFailure hBefore
      have hPasses := hUnderway.lt_nextDue hDue
      have hLater := h.resume { w' with now := due } (by dsimp only; omega) fun due' hDue' =>
        Nat.le_of_eq (Option.some.inj (hDue.symm.trans hDue'))
      have hStill : (s.resume env { w' with now := due }).2.now = due := Strand.now_resume s _
      obtain ⟨steps, w'', hSettle, hTime⟩ :=
        ih _ (s.resume env { w' with now := due }).2 (by rwa [hStill]) (by omega) (by omega)
      exact ⟨steps + 1, w'', Strand.settle_succ_eq_some.mpr (.inr ⟨due, hDue, hSettle⟩), hTime⟩
    · exact ⟨1, w', rfl, by omega⟩

variable (next failure) in
/-- A fork of calls that all start at once fails with the failure that it has to
report, when this comes. -/
theorem Width.Failure.failsAt :
    (Process.fork width (calls.map .single) next).FailsAt env w (w.now + t) (failure e) where
  ends := by
    have hStart : ((Process.fork width (calls.map .single) next).start env w).2.now = w.now :=
      Process.now_start _ w
    obtain ⟨steps, w', hSettle, hTime⟩ := Process.StandsAt.exists_settle hRoom hNext hFailure t _
      ((Process.fork width (calls.map .single) next).start env w).2 (by rw [hStart]; exact .start)
      (by omega) (by omega)
    exact ⟨w', ⟨steps, hSettle⟩, hTime⟩
  stands := by
    intro now s h
    obtain ⟨elapsed, rfl, ⟨hBefore, hUnderway⟩ | ⟨hAfter, hEnded⟩⟩ :=
      h.of_failure hRoom hNext hFailure
    · exact .inl ⟨Nat.add_lt_add_left hBefore w.now, hUnderway.ne_ended⟩
    · exact .inr ⟨Nat.add_le_add_left hAfter w.now, hEnded⟩

end Run

end Fork

/-! ## Calls of a parallel state -/

/-- The calls of a branch, if it is just one task or just one map: the activity, with each input. -/
inductive Branch.Calls (requestId : String) (payload : Json) (b : Branch) : List Request → Prop
  | task {t : TaskState} (hRoot : b.workflow.rootState? = some (.task t)) (hNext : t.next = none) :
    b.Calls requestId payload [⟨t.activity, payload, requestId⟩]
  | map {m : MapState} {activity : String} {inputs : List Json}
    (hRoot : b.workflow.rootState? = some (.map m)) (hBody : m.body = .activity activity)
    (hNext : m.next = none) (hInputs : m.inputs payload = .ok inputs) :
    b.Calls requestId payload (inputs.map fun input => ⟨activity, input, requestId⟩)

/-- The inputs of all branches resolve, and these are the calls with them, branch by branch. -/
def ParallelState.Dispatches (requestId : String) (payload : Json) (p : ParallelState)
    (calls : List Request) :
    Prop :=
  ∃ callss, List.Forall₂ (Branch.Calls requestId payload) p.branches callss ∧ calls = callss.flatten

section Dispatch

variable {site : Site} {payload : Json}

theorem Branch.Calls.exists_plan {b : Branch} {calls : List Request}
    (h : b.Calls site.requestId payload calls) :
    ∃ plan, b.plan site payload = .ok plan ∧ plan.strands = calls.map .single := by
  cases h with
  | @task t hRoot hNext =>
    refine ⟨_, Branch.plan_eq_ok_iff.mpr (.inl ⟨t, hRoot, rfl⟩), ?_⟩
    rw [Branch.taskStrand, hNext]
    rfl
  | @map m activity inputs hRoot hBody hNext hInputs =>
    refine ⟨_, Branch.plan_eq_ok_iff.mpr (.inr ⟨m, activity, inputs, hRoot, hBody, hInputs, rfl⟩),
      ?_⟩
    have hElement : b.elementWorkflow = none := by
      rw [Branch.elementWorkflow, Branch.elementTask?, hRoot]
      dsimp only
      rw [hNext]
      rfl
    rw [List.map_map]
    refine List.map_congr_left fun input _ => ?_
    rw [Branch.elementStrand, hElement]
    rfl

theorem branchPlans_of_calls {branches : List Branch} {callss : List (List Request)}
    (h : List.Forall₂ (Branch.Calls site.requestId payload) branches callss) :
    ∃ plans, branchPlans site payload branches = .ok plans ∧
      plans.flatMap BranchPlan.strands = callss.flatten.map .single := by
  simp only [branchPlans_eq_ok_iff]
  induction h with
  | nil => exact ⟨[], .nil, rfl⟩
  | cons hHead _ ih =>
    obtain ⟨plan, hPlan, hStrands⟩ := hHead.exists_plan
    obtain ⟨plans, hPlans, hRest⟩ := ih
    refine ⟨plan :: plans, .cons hPlan hPlans, ?_⟩
    rw [List.flatMap_cons, List.flatten_cons, List.map_append, hStrands, hRest]

/-- The state is a fork of its calls. -/
theorem ParallelState.Dispatches.transition {p : ParallelState} {calls : List Request}
    (h : p.Dispatches site.requestId payload calls) :
    ∃ next,
      p.transition site payload = .fork (parallelWidth calls.length) (calls.map .single) next ∧
      ∀ e, next (.error e) = site.fail payload e := by
  obtain ⟨callss, hCalls, rfl⟩ := h
  obtain ⟨plans, hPlans, hStrands⟩ := branchPlans_of_calls hCalls
  rw [ParallelState.transition, hPlans]
  dsimp only
  rw [hStrands, List.length_map]
  exact ⟨_, rfl, fun _ => rfl⟩

end Dispatch

/-! ## The failure of a parallel state -/

theorem length_le_of_parallelWidth {n limit : Nat}
    (h : parallelWidth n = .window limit) : n ≤ limit := by
  unfold parallelWidth at h
  split at h
  · cases h
  · exact Nat.le_of_eq (Width.window.inj h)

/-- The first failure to come is reported where all calls are watched, or where it is
also the first in turn. -/
theorem EarliestFailure.parallelWidth_iff {rs : List Response} {e : ActivityError} {t : Nat}
    (h : EarliestFailure rs e t) (n : Nat) :
    (parallelWidth n).Failure rs e t ↔ n ≤ watchedStrands ∨ FailureInTurn rs e t := by
  unfold parallelWidth
  split
  · rename_i hWatched
    exact iff_of_true h (.inl hWatched)
  · rename_i hMany
    exact (or_iff_right hMany).symm

/-- Started in this world, the state fails so long after that, with this failure of a call. Whatever
would come next in its workflow does not come. -/
def ParallelState.FailsAfter (env : Environment) (site : Site) (payload : Json)
    (f : Outcome → Process) (w : World) (p : ParallelState) (e : ActivityError) (t : Nat) : Prop :=
  ((p.transition site payload).andThen f).FailsAt env w (w.now + t)
    (.failedAt site.name payload (.activity e))

section Parallel

variable {site : Site} {payload : Json} {p : ParallelState} {calls : List Request}
  {e e' : ActivityError} {t t' : Nat}
variable {f : Outcome → Process}

theorem ParallelState.FailsAfter.unique (h : p.FailsAfter env site payload f w e t)
    (h' : p.FailsAfter env site payload f w e' t') : e = e' ∧ t = t' := by
  obtain ⟨hError, hTime⟩ := Process.FailsAt.unique h h'
  injection hError with _ _ hCause
  exact ⟨RunError.activity.inj hCause, Nat.add_left_cancel hTime⟩

/-- A parallel state fails as its fork of calls does. -/
theorem ParallelState.Dispatches.failsAfter (h : p.Dispatches site.requestId payload calls)
    (hFailure : (parallelWidth calls.length).Failure (env.responses calls w) e t)
    (f : Outcome → Process) :
    p.FailsAfter env site payload f w e t := by
  obtain ⟨next, hFork, hNext⟩ := h.transition
  rw [ParallelState.FailsAfter, hFork]
  refine Width.Failure.failsAt (fun r => (next r).andThen f)
    (fun e => .failedAt site.name payload (.activity e)) (fun _ => length_le_of_parallelWidth)
    (fun e => ?_) hFailure
  rw [hNext]
  rfl

/-- More calls than are watched: the state fails with the first failure in turn. -/
theorem ParallelState.Dispatches.failsAfter_inTurn (h : p.Dispatches site.requestId payload calls)
    (hMany : watchedStrands < calls.length) (hTurn : FailureInTurn (env.responses calls w) e t)
    (f : Outcome → Process) : p.FailsAfter env site payload f w e t := by
  refine h.failsAfter ?_ f
  rw [parallelWidth, if_neg (Nat.not_le.mpr hMany)]
  exact hTurn

theorem ParallelState.Dispatches.failsAfter_iff (h : p.Dispatches site.requestId payload calls)
    (hEarliest : EarliestFailure (env.responses calls w) e t) (f : Outcome → Process) :
    p.FailsAfter env site payload f w e t ↔
      calls.length ≤ watchedStrands ∨ FailureInTurn (env.responses calls w) e t := by
  refine ⟨fun hFails => ?_, fun hReported =>
    h.failsAfter ((hEarliest.parallelWidth_iff _).mpr hReported) f⟩
  rcases Nat.lt_or_ge watchedStrands calls.length with hMany | hFew
  · obtain ⟨e', t', hTurn⟩ := exists_failureInTurn ⟨_, hEarliest.mem, Response.fails_error e t⟩
    obtain ⟨rfl, rfl⟩ := hFails.unique (h.failsAfter_inTurn hMany hTurn f)
    exact .inr hTurn
  · exact .inl hFew

/-- If a call of a parallel state fails, one failure is the earliest. The state fails with it, and
when it comes, if no more calls are dispatched than are watched, or if the failure is in turn, and
only then; with more calls the state fails with the failure that is first in turn. The same holds
wherever the same calls fail, whatever other calls succeed. -/
theorem ParallelState.failsEarliest_iff (hCalls : p.Dispatches site.requestId payload calls)
    (hFails : ∃ r ∈ env.responses calls w, r.fails) (f : Outcome → Process) :
    ∃ e t, EarliestFailure (env.responses calls w) e t ∧
      (p.FailsAfter env site payload f w e t ↔
        calls.length ≤ watchedStrands ∨ FailureInTurn (env.responses calls w) e t) ∧
      (watchedStrands < calls.length → ∃ e' t', FailureInTurn (env.responses calls w) e' t' ∧
        p.FailsAfter env site payload f w e' t') ∧
      ∀ {env' : Environment} {w' : World} {p' : ParallelState} {payload' : Json}
        {calls' : List Request}, p'.Dispatches site.requestId payload' calls' →
        (env'.responses calls' w').filter Response.fails =
          (env.responses calls w).filter Response.fails →
        (p'.FailsAfter env' site payload' f w' e t ↔
          calls'.length ≤ watchedStrands ∨ FailureInTurn (env'.responses calls' w') e t) := by
  obtain ⟨e, t, hEarliest⟩ := exists_earliestFailure hFails
  refine ⟨e, t, hEarliest, hCalls.failsAfter_iff hEarliest f, fun hMany => ?_,
    fun hCalls' hSame => ?_⟩
  · obtain ⟨e', t', hTurn⟩ := exists_failureInTurn hFails
    exact ⟨e', t', hTurn, hCalls.failsAfter_inTurn hMany hTurn f⟩
  · exact hCalls'.failsAfter_iff (hEarliest.of_filter_eq hSame) f

end Parallel

/-! ## One call more -/

namespace TwoFailures

/-- Fails late. -/
def late : Branch := ⟨some "a", ⟨"t", [("t", .task ⟨"slow", none⟩)]⟩⟩

/-- Fails early. -/
def early : Branch := ⟨some "b", ⟨"t", [("t", .task ⟨"fast", none⟩)]⟩⟩

/-- A call for each element of `xs`. -/
def others : Branch := ⟨some "c", ⟨"m", [("m", .map ⟨.activity "f", "xs", none, none, none⟩)]⟩⟩

def state : ParallelState := ⟨[late, early, others], none⟩

def workflow : Workflow := ⟨"p", [("p", .parallel state)]⟩

def tooSlow : ActivityError := .failed "slow" "too slow"

def broken : ActivityError := .failed "fast" "broken"

/-- All calls but those of the first two activities are answered at once. -/
def environment : Environment where
  caller := fun _ r =>
    if r.activity = "slow" then ⟨.error tooSlow, 20⟩
    else if r.activity = "fast" then ⟨.error broken, 10⟩
    else ⟨.ok r.payload, 0⟩
  timeout := none

def payload (elements : Nat) : Json := .obj [("xs", .arr (List.replicate elements .null))]

def calls (elements : Nat) : List Request :=
  ⟨"slow", payload elements, "r"⟩ :: ⟨"fast", payload elements, "r"⟩ ::
    List.replicate elements ⟨"f", .null, "r"⟩

def responses (elements : Nat) : List Response :=
  ⟨.error tooSlow, 20⟩ :: ⟨.error broken, 10⟩ :: List.replicate elements ⟨.ok .null, 0⟩

theorem length_calls (n : Nat) : (calls n).length = n + 2 := by
  rw [calls, List.length_cons, List.length_cons, List.length_replicate]

theorem dispatches (n : Nat) : state.Dispatches "r" (payload n) (calls n) := by
  have hOthers :
      others.Calls "r" (payload n) ((List.replicate n .null).map fun input => ⟨"f", input, "r"⟩) :=
    .map rfl rfl rfl rfl
  refine ⟨_, .cons (.task rfl rfl) (.cons (.task rfl rfl) (.cons hOthers .nil)), ?_⟩
  simp [calls]

theorem responses_calls (n : Nat) (w : World) :
    environment.responses (calls n) w = responses n := by
  have hOthers : ∀ w, environment.responses (List.replicate n ⟨"f", .null, "r"⟩) w =
      List.replicate n ⟨.ok .null, 0⟩ := by
    induction n with
    | zero => exact fun _ => rfl
    | succ n ih =>
      intro w
      rw [List.replicate_succ, Environment.responses, ih]
      rfl
  rw [calls, Environment.responses, Environment.responses, hOthers]
  rfl

theorem earliestFailure (n : Nat) : EarliestFailure (responses n) broken 10 :=
  ⟨[⟨.error tooSlow, 20⟩], List.replicate n ⟨.ok .null, 0⟩,
    rfl, by simp, by simp [List.mem_replicate]⟩

theorem failureInTurn (n : Nat) : FailureInTurn (responses n) tooSlow 20 := .here tooSlow 20 _

/-- The early failure is never in turn. -/
theorem not_failureInTurn (n : Nat) : ¬ FailureInTurn (responses n) broken 10 :=
  fun h => absurd (h.unique (failureInTurn n)).2 (by decide)

/-- Where the state runs. -/
def site : Site := (Context.top "r").siteAt ⟨8, none, none⟩ 4 "p"

end TwoFailures

open TwoFailures in
/-- All of thirty calls are watched; of thirty-one that fail in the same way, the early
failure is not reported. -/
theorem ParallelState.failsEarliest_iff_thirtyCalls :
    state.Dispatches "r" (payload 28) (calls 28) ∧
      (∃ r ∈ environment.responses (calls 28) ⟨0, []⟩, r.fails) ∧
      state.FailsAfter environment site (payload 28) (fun o => .done (.ok o)) ⟨0, []⟩ broken 10 ∧
      ¬ state.FailsAfter environment site (payload 29) (fun o => .done (.ok o)) ⟨0, []⟩
        broken 10 := by
  have hFails : ∃ r ∈ environment.responses (calls 28) ⟨0, []⟩, r.fails :=
    ⟨_, by rw [responses_calls]; exact List.mem_cons_self, rfl⟩
  have hCalls : state.Dispatches site.requestId (payload 28) (calls 28) := dispatches 28
  obtain ⟨e, t, hEarliest, hReported, -, hSame⟩ :=
    ParallelState.failsEarliest_iff hCalls hFails fun o => .done (.ok o)
  rw [responses_calls] at hEarliest hSame
  obtain ⟨rfl, rfl⟩ := hEarliest.unique (earliestFailure 28)
  refine ⟨hCalls, hFails, hReported.mpr (.inl (by rw [length_calls]; decide)), fun hMore => ?_⟩
  have hFilter : (environment.responses (calls 29) ⟨0, []⟩).filter Response.fails =
      (responses 28).filter Response.fails := by
    rw [responses_calls]
    rfl
  rcases (hSame (dispatches 29) hFilter).mp hMore with hFew | hTurn
  · rw [length_calls] at hFew
    exact absurd hFew (by decide)
  · rw [responses_calls] at hTurn
    exact not_failureInTurn 29 hTurn

/-! ## Walks -/

/-- A walk that comes to a parallel state fails as the state does. -/
theorem Workflow.walk_failsAt_iff {v : Workflow} {limits : Limits} {ctx : Context} {name : String}
    {p : ParallelState} (hState : v.state? name = some (.parallel p)) (fuel : Nat) (payload : Json)
    (visited : List String) (e : ActivityError) (t : Nat) :
    (v.walk limits (fuel + 1) ctx name payload visited).FailsAt env w (w.now + t)
        (.failedAt name payload (.activity e)) ↔
      p.FailsAfter env (ctx.siteAt limits fuel name) payload
        (fun o => v.goOn limits fuel ctx p.next o.payload (name :: visited)) w e t := by
  rw [Workflow.walk_of_state hState]
  rfl

/-- Wherever a walk comes to a parallel state, and whatever the calls of the state come to, it fails
with the earliest failure, when that comes. -/
def Workflow.FailsEarliest (v : Workflow) (limits : Limits) : Prop :=
  ∀ name p, v.state? name = some (.parallel p) →
    ∀ ctx payload calls, p.Dispatches ctx.requestId payload calls →
      ∀ env w e t, EarliestFailure (env.responses calls w) e t →
        ∀ fuel visited,
        (v.walk limits (fuel + 1) ctx name payload visited).FailsAt env w (w.now + t)
          (.failedAt name payload (.activity e))

open TwoFailures in
/-- With thirty calls the early failure is reported, and with one call more, which
succeeds, the late one. -/
theorem Workflow.not_failsEarliest_thirtyOneCalls :
    workflow.validate = .ok () ∧ ¬ workflow.FailsEarliest ⟨8, none, none⟩ ∧
      (workflow.process ⟨8, none, none⟩ 5 "r" (payload 28)).FailsAt environment ⟨0, []⟩ 10
        (.failedAt "p" (payload 28) (.activity broken)) ∧
      (workflow.process ⟨8, none, none⟩ 5 "r" (payload 29)).FailsAt environment ⟨0, []⟩ 20
        (.failedAt "p" (payload 29) (.activity tooSlow)) := by
  have hState : workflow.state? "p" = some (.parallel state) := rfl
  have hEarliest (n : Nat) :
      EarliestFailure (environment.responses (calls n) ⟨0, []⟩) broken 10 := by
    rw [responses_calls]
    exact earliestFailure n
  have hTurn : FailureInTurn (environment.responses (calls 29) ⟨0, []⟩) tooSlow 20 := by
    rw [responses_calls]
    exact failureInTurn 29
  have hWatched :
      (workflow.process ⟨8, none, none⟩ 5 "r" (payload 28)).FailsAt environment ⟨0, []⟩ (0 + 10)
        (.failedAt "p" (payload 28) (.activity broken)) :=
    (Workflow.walk_failsAt_iff hState 4 _ [] broken 10).mpr
      (((dispatches 28).failsAfter_iff (hEarliest 28) _).mpr (.inl (by rw [length_calls]; decide)))
  have hMore :
      (workflow.process ⟨8, none, none⟩ 5 "r" (payload 29)).FailsAt environment ⟨0, []⟩ (0 + 20)
        (.failedAt "p" (payload 29) (.activity tooSlow)) :=
    (Workflow.walk_failsAt_iff hState 4 _ [] tooSlow 20).mpr
      ((dispatches 29).failsAfter_inTurn (by rw [length_calls]; decide) hTurn _)
  refine ⟨rfl, fun hAll => ?_, hWatched, hMore⟩
  have hEarly :=
    hAll "p" state hState (.top "r") (payload 29) (calls 29) (dispatches 29) _ ⟨0, []⟩ broken 10
      (hEarliest 29) 4 []
  exact absurd (hEarly.unique hMore).2 (by decide)

end Orchestration
