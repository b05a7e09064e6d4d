import Orchestration.Proofs.Run.Transitions
import Orchestration.Workflow.Validation

/-!
# The payload that a failure carries

A failure is to carry the payload as it was when its transition started. `Workflow.walkReporting`
is a walk that takes this at its word: it sets the payload aside before a transition and reports
just that one if the transition fails, whatever the transition says itself. What counts as one
transition is a parameter.

* `Site.reporting_parts`: a transition that is taken part by part (`State.parts`) reports what it
  would report by itself. A repeat has one part for each call, every other state is one part.
* `Workflow.runReporting_parts`: so a run fails with the payload that it had before the part that
  failed, and so does every workflow inside it.
* `Workflow.runReporting_whole_ne`: a repeat as a whole does not have it, since it goes on with
  the answer of each call.
-/

namespace Orchestration

variable {site : Site} {limits : Limits}

/-! ## Reporting with a payload set aside -/

def RunError.reportedAt (name : String) (payload : Json) : RunError → RunError
  | .failedAt _ _ cause => .failedAt name payload cause
  | cause => .failedAt name payload cause

/-- Does what the process does, but reports a failure as one at this state with this payload. -/
def Process.reportedAt (name : String) (payload : Json) : Process → Process
  | .done (.ok o) => .done (.ok o)
  | .done (.error e) => .done (.error (e.reportedAt name payload))
  | .call r next => .call r fun a => (next a).reportedAt name payload
  | .fork width strands next => .fork width strands fun r => (next r).reportedAt name payload
  | .exhausted => .exhausted

/-- Takes transitions in a row, each with the payload before it set aside, and then goes on. -/
def Site.reporting (site : Site) (limits : Limits) (goOn : Json → Process) :
    List State → Json → Process
  | [], payload => goOn payload
  | s :: rest, payload =>
    ((s.transition site limits payload).reportedAt site.name payload).andThen fun o =>
      site.reporting limits goOn rest o.payload

/-- The transitions that a state is made of. A repeat is made of its calls. -/
def State.parts : State → List State
  | .repeat r => List.replicate r.count (.task ⟨r.activity, none⟩)
  | s => [s]

/-- A walk that sets the payload aside before each of the transitions that a state is made of. -/
def Workflow.walkReporting (parts : State → List State) (limits : Limits) :
    Nat → Context → Workflow → String → Json → List String → Process
  | 0, _, _, _, _, _ => .exhausted
  | fuel + 1, ctx, w, name, payload, visited =>
    match w.state? name with
    | none => .fail (.failedAt name payload (.unknownState name))
    | some s =>
      let enter (inner : Workflow) (input : Json) : Process :=
        match ctx.nested? limits.maxDepth with
        | none => .fail (.depthExceeded limits.maxDepth)
        | some child => walkReporting parts limits fuel child inner inner.root input []
      let site : Site := ⟨name, ctx.requestId, enter⟩
      match s.successor payload with
      | .error e => site.fail payload e
      | .ok next =>
        site.reporting limits (fun p =>
          match next with
          | none => .done (.ok ⟨p, (name :: visited).reverse⟩)
          | some next => walkReporting parts limits fuel ctx w next p (name :: visited))
            (parts s) payload

def Workflow.runReporting (parts : State → List State) (w : Workflow) (limits : Limits)
    (caller : Caller) (fuel : Nat) (requestId : String) (payload : Json) : Option Execution :=
  let env : Environment := ⟨caller, limits.activityTimeout⟩
  let p := w.walkReporting parts limits fuel (.top requestId) w.root payload []
  let (s, world) := p.start env ⟨0, []⟩
  (s.settle env fuel world).map fun (result, world) =>
    ⟨requestId, result, world.past.reverse, world.now⟩

/-! ## Transitions -/

/-- The failures of a process are at this state and carry this payload already. -/
def Process.ReportsAt (name : String) (payload : Json) (p : Process) : Prop :=
  p.reportedAt name payload = p

theorem Process.reportsAt_value (name : String) (payload v : Json) :
    (Process.value v).ReportsAt name payload := rfl

theorem Site.reportsAt_fail (site : Site) (payload : Json) (cause : RunError) :
    (site.fail payload cause).ReportsAt site.name payload := rfl

theorem Process.ReportsAt.call {name : String} {payload : Json} {r : Request}
    {next : Except ActivityError Json → Process} (h : ∀ a, (next a).ReportsAt name payload) :
    (Process.call r next).ReportsAt name payload := by
  have hNext : (fun a => (next a).reportedAt name payload) = next := funext h
  rw [ReportsAt, Process.reportedAt, hNext]

theorem Process.ReportsAt.fork {name : String} {payload : Json} {width : Width}
    {strands : List Process} {next : Except RunError (List Outcome) → Process}
    (h : ∀ r, (next r).ReportsAt name payload) :
    (Process.fork width strands next).ReportsAt name payload := by
  have hNext : (fun r => (next r).reportedAt name payload) = next := funext h
  rw [ReportsAt, Process.reportedAt, hNext]

theorem Site.reportsAt_loopCalls (activity : String) (payload : Json) (elements : List Json) :
    (site.loopCalls activity payload elements).ReportsAt site.name payload := by
  induction elements with
  | nil => exact Process.reportsAt_value _ _ _
  | cons element rest ih =>
    rw [Site.loopCalls]
    apply Process.ReportsAt.call
    rintro (e | v)
    · exact site.reportsAt_fail payload _
    · exact ih

/-- Whatever strand fails, a map has not written anything back yet. -/
theorem MapState.reportsAt_transition (m : MapState) (payload : Json) :
    (m.transition site limits payload).ReportsAt site.name payload := by
  rw [MapState.transition]
  cases m.inputs payload with
  | error e => exact site.reportsAt_fail payload e
  | ok inputs =>
    apply Process.ReportsAt.fork
    rintro (e | results)
    · exact site.reportsAt_fail payload e
    · dsimp only
      split
      · exact Process.reportsAt_value _ _ _
      · exact site.reportsAt_fail payload _

theorem ParallelState.reportsAt_transition (p : ParallelState) (payload : Json) :
    (p.transition site payload).ReportsAt site.name payload := by
  rw [ParallelState.transition]
  cases branchPlans site payload p.branches with
  | error e => exact site.reportsAt_fail payload e
  | ok plans =>
    apply Process.ReportsAt.fork
    rintro (e | results)
    · exact site.reportsAt_fail payload e
    · exact Process.reportsAt_value _ _ _

/-- A call after which the payload is the answer. -/
theorem Site.repeatCalls_succ (activity : String) (n : Nat) (payload : Json)
    (goOn : Json → Process) :
    (site.repeatCalls activity (n + 1) payload).andThen (fun o => goOn o.payload) =
      .call (site.request activity payload) fun
        | .ok v => (site.repeatCalls activity n v).andThen fun o => goOn o.payload
        | .error e => site.fail payload (.activity e) := by
  rw [Site.repeatCalls, Process.andThen]
  congr 1
  funext a
  cases a <;> rfl

/-- A repeat carries the payload before the call that failed. -/
theorem Site.reporting_calls (goOn : Json → Process) (activity : String) (n : Nat)
    (payload : Json) :
    site.reporting limits goOn (List.replicate n (.task ⟨activity, none⟩)) payload =
      (site.repeatCalls activity n payload).andThen fun o => goOn o.payload := by
  induction n generalizing payload with
  | zero => rfl
  | succ n ih =>
    rw [Site.repeatCalls_succ, List.replicate_succ, Site.reporting, State.transition,
      Site.repeatCalls, Process.reportedAt, Process.andThen]
    congr 1
    funext a
    cases a with
    | error e => rfl
    | ok v => exact ih v

/-- A state that is taken part by part reports what it reports by itself. -/
theorem Site.reporting_parts (goOn : Json → Process) (s : State) (payload : Json) :
    site.reporting limits goOn s.parts payload =
      (s.transition site limits payload).andThen fun o => goOn o.payload := by
  have hWhole (h : (s.transition site limits payload).ReportsAt site.name payload) :
      site.reporting limits goOn [s] payload =
        (s.transition site limits payload).andThen fun o => goOn o.payload := by
    rw [Site.reporting, h]
    rfl
  cases s with
  | task t => exact site.reporting_calls goOn t.activity 1 payload
  | switch s => exact hWhole (Process.reportsAt_value _ _ _)
  | map m => exact hWhole (m.reportsAt_transition payload)
  | «repeat» r => exact site.reporting_calls goOn r.activity r.count payload
  | loop l =>
    apply hWhole
    rw [State.transition]
    split
    · exact site.reportsAt_fail payload _
    · exact site.reportsAt_loopCalls _ _ _
  | parallel p => exact hWhole (p.reportsAt_transition payload)

/-! ## Walks and runs -/

theorem Workflow.walkReporting_parts (fuel : Nat) :
    ∀ (ctx : Context) (w : Workflow) (name : String) (payload : Json) (visited : List String),
      w.walkReporting State.parts limits fuel ctx name payload visited =
        w.walk limits fuel ctx name payload visited := by
  induction fuel with
  | zero =>
    intro ctx w name payload visited
    rfl
  | succ fuel ih =>
    intro ctx w name payload visited
    -- Workflows inside the state have less fuel, so their walks agree, and with them the sites.
    have hWalks : Workflow.walkReporting State.parts limits fuel = Workflow.walk limits fuel := by
      funext ctx w name payload visited
      exact ih ctx w name payload visited
    rw [Workflow.walkReporting, Workflow.walk_succ, hWalks]
    cases w.state? name with
    | none => rfl
    | some s =>
      dsimp only
      cases s.successor payload with
      | error e => rfl
      | ok next => exact Site.reporting_parts _ s payload

/-- Setting the payload aside before each part of a transition and reporting it on failure
changes nothing: a failure at any level carries the payload that its transition started with, or
its call in a repeat. -/
theorem Workflow.runReporting_parts (w : Workflow) (limits : Limits) (caller : Caller) (fuel : Nat)
    (requestId : String) (payload : Json) :
    w.runReporting State.parts limits caller fuel requestId payload =
      w.run limits caller fuel requestId payload := by
  unfold Workflow.runReporting Workflow.run
  rw [Workflow.walkReporting_parts]
  rfl

/-- Calls one activity twice. -/
def twice (activity : String) : Workflow := ⟨"r", [("r", .repeat ⟨activity, 2, none⟩)]⟩

/-- Answers with the field `a` of the payload. -/
def fieldA : Answers := fun activity payload =>
  match payload.field? "a" with
  | some v => .ok v
  | none => .error (.failed activity "no field a")

/-- The second call fails, and the run carries the answer of the first one, not what
the repeat started with. -/
theorem Workflow.runReporting_whole_ne :
    (twice "f").validate = .ok () ∧
      ∃ e e' cause, (twice "f").run ⟨0, none, none⟩ (fieldA.caller fun _ => 0) 2 "r"
          (.single "a" (.single "b" (.int 1))) = some e ∧
        (twice "f").runReporting (fun s => [s]) ⟨0, none, none⟩ (fieldA.caller fun _ => 0) 2 "r"
          (.single "a" (.single "b" (.int 1))) = some e' ∧
        e.result = .error (.failedAt "r" (.single "b" (.int 1)) cause) ∧
        e'.result = .error (.failedAt "r" (.single "a" (.single "b" (.int 1))) cause) :=
  ⟨rfl, _, _, _, rfl, rfl, rfl, rfl⟩

end Orchestration
