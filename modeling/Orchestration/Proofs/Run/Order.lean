import Orchestration.Proofs.Run.Transitions
import Orchestration.Proofs.Workflow.Levels

/-!
# The order of calls

A process without forks makes one call after the other, so a run of it makes its calls in the order
of its evaluation, whatever they take.

* `Process.Serial`: no forks, and a failing call fails the process. The processes of workflows of
  tasks, switches, repeats and loops are serial (`Workflow.walk_serial`).
* `Process.Serial.start`: running a serial process up to where it waits.
* `Strand.settle_serial`: letting time pass until it is over.
* `Workflow.eval_calls_of_run`: a run of such a workflow that ends well makes the calls of its
  evaluation, in that order.
-/

namespace Orchestration

variable {answers : Answers} {limits : Limits} {site : Site}

/-! ## Serial processes -/

/-- Calls are made one by one, and a failing call fails the process. -/
def Process.Serial : Process → Prop
  | .done _ | .exhausted => True
  | .call _ next => (∀ v, (next (.ok v)).Serial) ∧ ∀ e, ∃ e', next (.error e) = .fail e'
  | .fork _ _ _ => False

theorem Process.serial_fail (e : RunError) : (Process.fail e).Serial := by
  simp [Process.fail, Process.Serial]

theorem Process.serial_value (payload : Json) : (Process.value payload).Serial := by
  simp [Process.value, Process.Serial]

/-- Whatever a call of a serial process answers, what follows is serial. -/
theorem Process.Serial.next {r : Request} {next : Except ActivityError Json → Process}
    (h : (Process.call r next).Serial) (answer : Except ActivityError Json) :
    (next answer).Serial := by
  rw [Process.Serial] at h
  cases answer with
  | ok v => exact h.1 v
  | error e =>
    obtain ⟨e', he⟩ := h.2 e
    rw [he]
    exact Process.serial_fail e'

theorem Process.Serial.andThen {f : Outcome → Process} (hf : ∀ o, (f o).Serial) :
    ∀ {p : Process}, p.Serial → (p.andThen f).Serial
  | .done (.ok o), _ => hf o
  | .done (.error e), _ => Process.serial_fail e
  | .exhausted, h => h
  | .call r next, h => by
    rw [Process.Serial] at h
    rw [Process.andThen, Process.Serial]
    refine ⟨fun v => Process.Serial.andThen hf (h.1 v), fun e => ?_⟩
    obtain ⟨e', he⟩ := h.2 e
    exact ⟨e', by rw [he]; rfl⟩
  | .fork _ _ _, h => h.elim

/-! ## Runs of serial processes -/

/-- What a strand that waits for one call at most still comes to, and the
calls that it still makes. -/
def Strand.eval (answers : Answers) : Strand → Option (Outcome × List Call)
  | .ended (.ok o) => some (o, [])
  | .waiting _ _ answer next => (next answer).eval answers
  | _ => none

/-- The strand waits for one call at most, and what follows is serial. -/
def Strand.Serial : Strand → Prop
  | .ended _ | .exhausted => True
  | .waiting _ _ answer next => (next answer).Serial
  | .together _ _ | .window _ _ _ _ _ => False

/-- A call and what follows its answer, if the answer is known to be that of the activity. -/
theorem Process.Serial.eval_call {r : Request} {next : Except ActivityError Json → Process}
    (h : (Process.call r next).Serial) {answer : Except ActivityError Json}
    (hKnown : answers.Known r answer) {o : Outcome} {cs : List Call}
    (hNext : (next answer).eval answers = some (o, cs)) :
    (Process.call r next).eval answers = some (o, r.call :: cs) := by
  rw [Process.Serial] at h
  cases answer with
  | ok v => exact Process.eval_call_eq_some.mpr ⟨v, cs, hKnown v rfl, hNext, rfl⟩
  | error e =>
    obtain ⟨e', he⟩ := h.2 e
    rw [he, Process.eval_fail] at hNext
    cases hNext

/-- Up to where it waits, a serial process makes the first calls of its evaluation. -/
theorem Process.Serial.start {env : Environment}
    (hKnown : ∀ world r, answers.Known r (env.respond world r).answer) :
    ∀ {p : Process} {world world' : World} {s : Strand}, p.Serial →
      p.start env world = (s, world') →
      s.Serial ∧ ∃ rs : List Request, world'.past = rs.reverse ++ world.past ∧
        ∀ o cs, s.eval answers = some (o, cs) → p.eval answers = some (o, rs.map Request.call ++ cs)
  | .done result, world, world', s, _, hStart => by
    rw [Process.start, Prod.mk.injEq] at hStart
    obtain ⟨rfl, rfl⟩ := hStart
    refine ⟨by simp [Strand.Serial], [], rfl, fun o cs hEval => ?_⟩
    cases result with
    | ok _ => exact hEval
    | error _ => cases hEval
  | .exhausted, world, world', s, _, hStart => by
    rw [Process.start, Prod.mk.injEq] at hStart
    obtain ⟨rfl, rfl⟩ := hStart
    exact ⟨by simp [Strand.Serial], [], rfl, fun o cs hEval => by cases hEval⟩
  | .call r next, world, world', s, h, hStart => by
    have hAnswer := hKnown world r
    rw [Process.start] at hStart
    by_cases hNow : (env.respond world r).delay = 0
    · rw [if_pos hNow] at hStart
      obtain ⟨hSerial, rs, hPast, hEval⟩ := Process.Serial.start hKnown (h.next _) hStart
      refine ⟨hSerial, r :: rs, by simp [hPast], fun o cs hRest => ?_⟩
      exact h.eval_call hAnswer (hEval o cs hRest)
    · -- The call is under way with its answer known: it comes to what follows the answer.
      rw [if_neg hNow, Prod.mk.injEq] at hStart
      obtain ⟨rfl, rfl⟩ := hStart
      refine ⟨?_, [r], rfl, fun o cs hRest => h.eval_call hAnswer hRest⟩
      rw [Strand.Serial]
      exact h.next _
  | .fork _ _ _, _, _, _, h, _ => h.elim

/-- Until it is over, a serial strand makes the calls of its evaluation. -/
theorem Strand.settle_serial {env : Environment}
    (hKnown : ∀ world r, answers.Known r (env.respond world r).answer) {fuel : Nat} :
    ∀ {s : Strand} {world world' : World} {o : Outcome}, s.Serial →
      s.settle env fuel world = some (.ok o, world') →
      ∃ rs : List Request, world'.past = rs.reverse ++ world.past ∧
        s.eval answers = some (o, rs.map Request.call) := by
  induction fuel with
  | zero =>
    intro s world world' o _ hSettle
    cases hSettle
  | succ fuel ih =>
    intro s world world' o hSerial hSettle
    cases s with
    | ended result =>
      rw [Strand.settle, Option.some.injEq, Prod.mk.injEq] at hSettle
      obtain ⟨rfl, rfl⟩ := hSettle
      exact ⟨[], rfl, rfl⟩
    | exhausted => cases hSettle
    | waiting due ticket answer next =>
      rw [Strand.Serial] at hSerial
      simp only [Strand.settle, Strand.nextDue, Strand.resume, Nat.le_refl, if_true] at hSettle
      cases hStart : (next answer).start env { world with now := due } with | mk s between => ?_
      rw [hStart] at hSettle
      obtain ⟨hNext, rs, hPast, hEval⟩ := hSerial.start hKnown hStart
      obtain ⟨rs', hPast', hRest⟩ := ih hNext hSettle
      refine ⟨rs ++ rs', by simp [hPast', hPast], ?_⟩
      rw [Strand.eval, hEval o _ hRest, List.map_append]
    | together _ _ => exact hSerial.elim
    | window _ _ _ _ _ => exact hSerial.elim

/-! ## Sequential workflows -/

/-- The state is a task, a switch, a repeat or a loop. -/
def State.Sequential (s : State) : Prop := s.kind ∈ [Kind.task, .switch, .repeat, .loop]

instance (s : State) : Decidable s.Sequential := inferInstanceAs (Decidable (_ ∈ _))

/-- The workflow is made of tasks, switches, repeats and loops. -/
def Workflow.Sequential (w : Workflow) : Prop := ∀ e ∈ w.states, e.2.Sequential

instance (w : Workflow) : Decidable w.Sequential := inferInstanceAs (Decidable (∀ e ∈ w.states, _))

theorem Site.serial_fail (payload : Json) (cause : RunError) : (site.fail payload cause).Serial :=
  Process.serial_fail _

theorem Site.serial_repeatCalls (activity : String) (n : Nat) (payload : Json) :
    (site.repeatCalls activity n payload).Serial := by
  induction n generalizing payload with
  | zero => exact Process.serial_value payload
  | succ n ih =>
    rw [Site.repeatCalls, Process.Serial]
    exact ⟨fun v => ih v, fun e => ⟨_, rfl⟩⟩

theorem Site.serial_loopCalls (activity : String) (payload : Json) (elements : List Json) :
    (site.loopCalls activity payload elements).Serial := by
  induction elements with
  | nil => exact Process.serial_value payload
  | cons element rest ih =>
    rw [Site.loopCalls, Process.Serial]
    exact ⟨fun _ => ih, fun e => ⟨_, rfl⟩⟩

theorem State.Sequential.serial_transition {s : State} (h : s.Sequential) (payload : Json) :
    (s.transition site limits payload).Serial := by
  cases s with
  | task t => exact Site.serial_repeatCalls _ _ _
  | switch s => exact Process.serial_value _
  | «repeat» r => exact Site.serial_repeatCalls _ _ _
  | loop l =>
    rw [State.transition]
    split
    · exact Site.serial_fail _ _
    · exact Site.serial_loopCalls _ _ _
  | map m => simp [State.Sequential, State.kind] at h
  | parallel p => simp [State.Sequential, State.kind] at h

/-- Every walk of a sequential workflow is serial. -/
theorem Workflow.walk_serial {w : Workflow} (h : w.Sequential) (ctx : Context) (fuel : Nat) :
    ∀ (name : String) (payload : Json) (visited : List String),
      (w.walk limits fuel ctx name payload visited).Serial := by
  induction fuel with
  | zero =>
    intro name payload visited
    rw [Workflow.walk, Process.Serial]
    trivial
  | succ fuel ih =>
    intro name payload visited
    rw [Workflow.walk_succ]
    split
    · exact Process.serial_fail _
    · rename_i s hState
      split
      · exact Site.serial_fail _ _
      · refine Process.Serial.andThen (fun o => ?_)
          ((h _ (Workflow.mem_states hState)).serial_transition payload)
        split
        · simp [Process.Serial]
        · exact ih _ _ _

/-- If a run of a sequential workflow ends well, it has the outcome of its evaluation and makes the
calls of it, in that order. -/
theorem Workflow.eval_calls_of_run {w : Workflow} {caller : Caller} {fuel : Nat}
    {requestId : String} {payload : Json} {e : Execution} {o : Outcome} (hSequential : w.Sequential)
    (hCaller : caller.AnswersBy answers)
    (hRun : w.run limits caller fuel requestId payload = some e) (hOk : e.result = .ok o) :
    (w.process limits fuel requestId payload).eval answers =
      some (o, e.calls.map Request.call) := by
  have hKnown := hCaller.known limits.activityTimeout
  have hSerial : (w.process limits fuel requestId payload).Serial :=
    Workflow.walk_serial hSequential _ _ _ _ _
  cases hStart : (w.process limits fuel requestId payload).start
    ⟨caller, limits.activityTimeout⟩ ⟨0, []⟩ with | mk s world => ?_
  simp only [Workflow.run, hStart, Option.map_eq_some_iff] at hRun
  obtain ⟨⟨result, world'⟩, hSettle, rfl⟩ := hRun
  cases hOk
  obtain ⟨hStrand, rs, hPast, hEval⟩ := hSerial.start hKnown hStart
  obtain ⟨rs', hPast', hRest⟩ := Strand.settle_serial hKnown hStrand hSettle
  rw [hEval o _ hRest, ← List.map_append, hPast', hPast]
  simp

end Orchestration
