import Orchestration.Proofs.Run.AtRest
import Orchestration.Proofs.Run.Parts
import Orchestration.Proofs.Run.Scheduling

/-!
# Workflows on their own

A workflow inside another one does what it does on its own, as long as there is room for its
nesting.

* `State.transition_congr`: what a state does depends only on the workflows that
  it runs one level deeper.
* `Context.enter_eq_process`: a workflow one level deeper is the process that it is on its own.
* `Process.Regular.succeeds_iff`, `Workflow.gives_iff`: a process or a workflow succeeds if and only
  if it evaluates, in whatever time.
-/

namespace Orchestration

/-! ## Success -/

/-- Started in this world, the process ends well. -/
def Process.Succeeds (env : Environment) (p : Process) (w : World) (o : Outcome) : Prop :=
  ∃ steps w', (p.start env w).1.settle env steps (p.start env w).2 = some (.ok o, w')

/-- The process evaluates to this payload. -/
def Process.Returns (answers : Answers) (p : Process) (result : Json) : Prop :=
  ∃ o cs, p.eval answers = some (o, cs) ∧ o.payload = result

/-- The workflow, run on its own, ends well with this payload. -/
def Workflow.Gives (limits : Limits) (caller : Caller) (requestId : String) (w : Workflow)
    (payload result : Json) : Prop :=
  ∃ fuel e o, w.run limits caller fuel requestId payload = some e ∧ e.result = .ok o ∧
    o.payload = result

section Success

variable {env : Environment} {answers : Answers}

theorem Answers.known_of_eq {r : Request} {a : Except ActivityError Json}
    (h : a = answers r.activity r.payload) :
    answers.Known r a := fun _ hOk => h.symm.trans hOk

/-- A regular process succeeds if and only if it evaluates. -/
theorem Process.Regular.succeeds_iff {p : Process} (h : p.Regular)
    (hEnv : ∀ w r, (env.respond w r).answer = answers r.activity r.payload) {w : World}
    {o : Outcome} :
    p.Succeeds env w o ↔ ∃ cs, p.eval answers = some (o, cs) := by
  have hKnown : ∀ w r, answers.Known r (env.respond w r).answer :=
    fun w r => Answers.known_of_eq (hEnv w r)
  constructor
  · rintro ⟨steps, w', hSettle⟩
    exact Strand.settle_meets hKnown steps (Process.start_meets hKnown p _ w h.meets_evalPost)
      hSettle o rfl
  · rintro ⟨cs, hEval⟩
    obtain ⟨ds, k, hYields, -⟩ := Process.start_yields hEnv p w o cs ⟨h, cs, hEval, rfl⟩
    rcases Strand.settle_yields hEnv (k + Multiset.card ds + 1) hYields with ⟨-, hShort⟩
      | ⟨w', hSettle, -⟩
    · omega
    · exact ⟨_, w', hSettle⟩

/-- The payload with which a regular process succeeds is the one to which it evaluates. -/
theorem Process.Regular.succeeds_with_iff {p : Process} (h : p.Regular)
    (hEnv : ∀ w r, (env.respond w r).answer = answers r.activity r.payload) {w : World} {v : Json} :
    (∃ o, p.Succeeds env w o ∧ o.payload = v) ↔ p.Returns answers v := by
  refine exists_congr fun o => ?_
  rw [h.succeeds_iff hEnv, exists_and_right]

/-- A regular process that evaluates never fails, whatever becomes of it. -/
theorem Process.Regular.not_fails {p : Process} (h : p.Regular)
    (hEnv : ∀ w r, (env.respond w r).answer = answers r.activity r.payload) {v : Json}
    (hReturns : p.Returns answers v) (e : RunError) : ¬ p.Becomes env (.ended (.error e)) := by
  obtain ⟨o, cs, hEval, -⟩ := hReturns
  have hYields : ∀ {s}, p.Becomes env s → ∃ ds k, s.Yields answers o ds k := by
    intro s hBecomes
    induction hBecomes with
    | start w =>
      obtain ⟨ds, k, hStart, -⟩ := Process.start_yields hEnv p w o cs ⟨h, cs, hEval, rfl⟩
      exact ⟨ds, k, hStart⟩
    | resume _ w ih =>
      obtain ⟨ds, k, hBefore⟩ := ih
      obtain ⟨ds', k', hAfter, -⟩ := Strand.resume_yields hEnv _ w o ds k hBefore
      exact ⟨ds', k', hAfter⟩
  intro hFails
  obtain ⟨ds, k, hEnd⟩ := hYields hFails
  rw [Strand.Yields] at hEnd
  cases hEnd.1

/-- More fuel does not change what a workflow evaluates to, and neither does its request id. -/
theorem Workflow.eval_process_mono {w : Workflow} {limits : Limits} {fuel fuel' : Nat}
    (hFuel : fuel ≤ fuel') {requestId requestId' : String} {payload : Json}
    {r : Outcome × List Call}
    (h : (w.process limits fuel requestId payload).eval answers = some r) :
    (w.process limits fuel' requestId' payload).eval answers = some r := by
  have hDepth : (Context.top requestId).depth = (Context.top requestId').depth := rfl
  exact Workflow.walk_refines rfl fuel w.root payload [] hFuel hDepth rfl r h

/-- A workflow gives a result if and only if it evaluates to it. -/
theorem Workflow.gives_iff {w : Workflow} {limits : Limits} {caller : Caller}
    (hEnv : ∀ world r, ((Environment.mk caller limits.activityTimeout).respond world r).answer =
      answers r.activity r.payload) {requestId : String} {payload result : Json} :
    w.Gives limits caller requestId payload result ↔
      ∃ fuel, (w.process limits fuel requestId payload).Returns answers result := by
  constructor
  · rintro ⟨fuel, e, o, hRun, hOk, rfl⟩
    obtain ⟨cs, hEval⟩ := Workflow.run_meets (fun world r => Answers.known_of_eq (hEnv world r))
      (Process.Regular.meets_evalPost (Workflow.walk_regular fuel _ w _ payload [])) hRun o hOk
    exact ⟨fuel, o, cs, hEval, rfl⟩
  · rintro ⟨fuel, o, cs, hEval, rfl⟩
    have hMore : (w.process limits (max fuel (cs.length + 1)) requestId payload).eval answers =
        some (o, cs) :=
      Workflow.eval_process_mono (Nat.le_max_left _ _) hEval
    rcases Workflow.run_of_eval hEnv hMore with ⟨-, hShort⟩ | ⟨e, hRun, hOk, -⟩
    · omega
    · exact ⟨_, e, o, hRun, hOk, rfl⟩

theorem Workflow.gives_of_returns {w : Workflow} {limits : Limits} {caller : Caller}
    (hEnv : ∀ world r, ((Environment.mk caller limits.activityTimeout).respond world r).answer =
      answers r.activity r.payload) {fuel : Nat} {requestId requestId' : String}
    {payload result : Json} (h : (w.process limits fuel requestId payload).Returns answers result) :
    w.Gives limits caller requestId' payload result := by
  obtain ⟨o, cs, hEval, hResult⟩ := h
  exact (Workflow.gives_iff hEnv).mpr ⟨fuel, o, cs,
    Workflow.eval_process_mono (Nat.le_refl fuel) hEval, hResult⟩

/-- What a workflow gives it evaluates to with any fuel from some number on,
under any request id. -/
theorem Workflow.Gives.exists_returns {w : Workflow} {limits : Limits} {caller : Caller}
    (hEnv : ∀ world r, ((Environment.mk caller limits.activityTimeout).respond world r).answer =
      answers r.activity r.payload) {requestId : String} {payload result : Json}
    (h : w.Gives limits caller requestId payload result) (requestId' : String) :
    ∃ n, ∀ m ≥ n, (w.process limits m requestId' payload).Returns answers result := by
  obtain ⟨fuel, o, cs, hEval, hResult⟩ := (Workflow.gives_iff hEnv).mp h
  exact ⟨fuel, fun m hm => ⟨o, cs, Workflow.eval_process_mono hm hEval, hResult⟩⟩

end Success

/-! ## Places that a state does not tell apart -/

/-- The state finds the same at both places. -/
structure Site.Agrees (s : State) (site site' : Site) : Prop where
  name : site.name = site'.name
  requestId : site.requestId = site'.requestId
  enter : ∀ {w}, s.Nests w → ∀ input, site.enter w input = site'.enter w input

namespace Site.Agrees

variable {s : State} {site site' : Site} {limits : Limits}

theorem fail (h : Site.Agrees s site site') : site.fail = site'.fail := by
  funext payload cause
  rw [Site.fail, Site.fail, h.name]

theorem request (h : Site.Agrees s site site') : site.request = site'.request := by
  funext activity payload
  rw [Site.request, Site.request, h.requestId]

theorem dispatch (h : Site.Agrees s site site') : site.dispatch = site'.dispatch := by
  funext activity payload
  rw [Site.dispatch, Site.dispatch, h.request]

theorem repeatCalls (h : Site.Agrees s site site') (activity : String) (n : Nat) (payload : Json) :
    site.repeatCalls activity n payload = site'.repeatCalls activity n payload := by
  induction n generalizing payload with
  | zero => rfl
  | succ n ih =>
    rw [Site.repeatCalls, Site.repeatCalls, h.request, h.fail]
    congr 1
    funext answer
    cases answer with
    | error e => rfl
    | ok v => exact ih v

theorem loopCalls (h : Site.Agrees s site site') (activity : String) (payload : Json)
    (elements : List Json) :
    site.loopCalls activity payload elements = site'.loopCalls activity payload elements := by
  induction elements with
  | nil => rfl
  | cons element rest ih => rw [Site.loopCalls, Site.loopCalls, h.request, h.fail, ih]

theorem map {m : MapState} (h : Site.Agrees (.map m) site site') (payload : Json) :
    m.transition site limits payload = m.transition site' limits payload := by
  have hBody : m.body.process site = m.body.process site' := by
    funext input
    cases hBody : m.body with
    | activity name => exact congrFun (congrFun h.dispatch name) input
    | workflow w => exact h.enter (.body hBody) input
  rw [MapState.transition, MapState.transition, hBody, h.fail]

theorem plan {p : ParallelState} (h : Site.Agrees (.parallel p) site site') {b : Branch}
    (hBranch : b ∈ p.branches) (payload : Json) : b.plan site payload = b.plan site' payload := by
  unfold Branch.plan
  split
  · rename_i t hRoot
    rw [h.dispatch]
    cases hNext : t.next with
    | none => rfl
    | some next => rw [h.enter (.branch hBranch hRoot hNext)]
  · rw [h.dispatch]
    cases hElement : b.elementWorkflow with
    | none => rfl
    | some w =>
      have hEnter : site.enter w = site'.enter w :=
        funext fun input => h.enter (.element hBranch hElement) input
      simp only [hEnter]
  · rfl
  · rfl

theorem parallel {p : ParallelState} (h : Site.Agrees (.parallel p) site site') (payload : Json) :
    p.transition site payload = p.transition site' payload := by
  have hPlans : ∀ {branches}, (∀ b ∈ branches, b ∈ p.branches) →
      branchPlans site payload branches = branchPlans site' payload branches := by
    intro branches hSub
    induction branches with
    | nil => rfl
    | cons b rest ih =>
      obtain ⟨hHead, hRest⟩ := List.forall_mem_cons.mp hSub
      rw [branchPlans, branchPlans, h.plan hHead, ih hRest]
  rw [ParallelState.transition, ParallelState.transition, hPlans fun b hb => hb, h.fail]

end Site.Agrees

/-- What a state does depends only on the workflows that it runs one level deeper. -/
theorem State.transition_congr {s : State} {site site' : Site} (h : Site.Agrees s site site')
    (limits : Limits) (payload : Json) :
    s.transition site limits payload = s.transition site' limits payload := by
  cases s with
  | task t => exact h.repeatCalls t.activity 1 payload
  | «switch» sw => rfl
  | map m => exact h.map payload
  | «repeat» r => exact h.repeatCalls r.activity r.count payload
  | loop l =>
    rw [State.transition, State.transition, h.fail]
    split
    · rfl
    · exact h.loopCalls l.activity payload _
  | parallel p => exact h.parallel payload

/-! ## Depth -/

section Depth

variable {limits : Limits}

theorem Context.enter_of_lt {ctx : Context} (h : ctx.depth < limits.maxDepth) (fuel : Nat)
    (w : Workflow) (input : Json) :
    ctx.enter limits fuel w input =
      w.walk limits fuel { ctx with depth := ctx.depth + 1 } w.root input [] := by
  rw [Context.enter, Context.nested?, if_pos h]

/-- Where there is room for what a workflow nests, it does not matter how deep it runs. -/
theorem Workflow.walk_eq_of_room (fuel : Nat) :
    ∀ {ctx ctx' : Context} {w : Workflow} (name : String) (payload : Json) (visited : List String),
      ctx.requestId = ctx'.requestId → ctx.depth + w.nesting ≤ limits.maxDepth →
      ctx'.depth + w.nesting ≤ limits.maxDepth →
      w.walk limits fuel ctx name payload visited =
        w.walk limits fuel ctx' name payload visited := by
  -- A workflow inside nests less, which makes up for the level that it is deeper.
  induction fuel with
  | zero =>
    intro ctx ctx' w name payload visited _ _ _
    rfl
  | succ fuel ih =>
    intro ctx ctx' w name payload visited hId hRoom hRoom'
    rw [Workflow.walk_succ, Workflow.walk_succ]
    cases hState : w.state? name with
    | none => rfl
    | some s =>
      have hAgrees :
          Site.Agrees s (ctx.siteAt limits fuel name) (ctx'.siteAt limits fuel name) := by
        refine ⟨rfl, hId, fun {inner} hNests input => ?_⟩
        have hLess := hNests.nesting_lt
        have hOwn := Workflow.nesting_le_of_mem (Workflow.mem_states hState)
        change ctx.enter limits fuel inner input = ctx'.enter limits fuel inner input
        rw [Context.enter_of_lt (by omega), Context.enter_of_lt (by omega)]
        exact ih _ _ _ hId (by simp only; omega) (by simp only; omega)
      dsimp only
      rw [hAgrees.fail, State.transition_congr hAgrees]
      split
      · rfl
      · congr 1
        funext o
        split
        · rfl
        · exact ih _ _ _ hId hRoom hRoom'

/-- A workflow one level deeper is the process that it is on its own, where there is
room for what it nests. -/
theorem Context.enter_eq_process {ctx : Context} {w : Workflow}
    (h : ctx.depth + w.nesting < limits.maxDepth) (fuel : Nat) (input : Json) :
    ctx.enter limits fuel w input = w.process limits fuel ctx.requestId input := by
  rw [Context.enter_of_lt (by omega)]
  exact Workflow.walk_eq_of_room fuel _ _ _ rfl (by simp only; omega)
    (by simp only [Context.top]; omega)

end Depth

end Orchestration
