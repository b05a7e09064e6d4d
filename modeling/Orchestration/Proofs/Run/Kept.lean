import Orchestration.Proofs.Run.WriteBack
import Orchestration.Proofs.Workflow.WellFormed

/-!
# Payloads that are kept

A switch and a loop hand on the payload that they were given. If every call is answered with its own
payload, so do all other states but parallel states and maps with common parameters, and so do
workflows of such states.

* `Keeps`: the end of a process that neither changes the payload nor reports another one.
* `Site.loopCalls_keeps`: loops, whatever their calls are answered.
* `MapState.keeps_of_echoed`: a map writes back what it has read, and that changes nothing.
* `Workflow.run_echo`: dry runs.
-/

namespace Orchestration

variable {A : Answering} {site : Site} {limits : Limits} {payload : Json}

/-- The payload is this one at the end, and it is the one that a failure is reported with. -/
def Keeps (payload : Json) : Post
  | .ok o => o.payload = payload
  | .error e => ∃ name cause, e = .failedAt name payload cause

theorem Process.meets_keeps_value (payload : Json) :
    (Process.value payload).Meets A (Keeps payload) := by
  rw [Process.value, Process.Meets]
  exact rfl

theorem Site.meets_keeps_fail (payload : Json) (cause : RunError) :
    (site.fail payload cause).Meets A (Keeps payload) := by
  rw [Site.fail, Process.fail, Process.Meets]
  exact ⟨site.name, cause, rfl⟩

/-- A loop does not look at the answers of its calls. -/
theorem Site.loopCalls_keeps (activity : String) (payload : Json) (elements : List Json) :
    (site.loopCalls activity payload elements).Meets A (Keeps payload) := by
  induction elements with
  | nil => exact Process.meets_keeps_value payload
  | cons element rest ih =>
    rw [Site.loopCalls, Process.Meets]
    rintro (e | v) -
    · exact Site.meets_keeps_fail payload (.activity e)
    · exact ih

theorem LoopState.keeps (l : LoopState) (payload : Json) :
    ((State.loop l).transition site limits payload).Meets A (Keeps payload) := by
  rw [State.transition]
  split
  · exact Site.meets_keeps_fail payload _
  · exact Site.loopCalls_keeps l.activity payload _

/-! ## Echoes -/

/-- Every call is answered with its own payload. -/
def echoed : Answering := fun r a => a = .ok r.payload

/-- If the process ends well, it gives back what was put in. -/
def GivesBack (input : Json) : Post := fun r => ∀ o, r = .ok o → o.payload = input

theorem Keeps.givesBack {r : Except RunError Outcome} (h : Keeps payload r) :
    GivesBack payload r := by
  rintro o rfl
  exact h

theorem Environment.echoed_respond (timeout : Option Nat) (w : World) (r : Request) :
    echoed r ((Environment.mk .echo timeout).respond w r).answer := by
  cases timeout <;> rfl

theorem Site.repeatCalls_keeps_of_echoed (activity : String) (n : Nat) (payload : Json) :
    (site.repeatCalls activity n payload).Meets echoed (Keeps payload) := by
  induction n with
  | zero => exact Process.meets_keeps_value payload
  | succ n ih =>
    rw [Site.repeatCalls, Process.Meets]
    rintro _ rfl
    exact ih

theorem Site.dispatch_givesBack_of_echoed (activity : String) (input : Json) :
    (site.dispatch activity input).Meets echoed (GivesBack input) := by
  rw [Site.dispatch, Process.single, Process.Meets]
  rintro _ rfl
  exact (Process.meets_keeps_value input).mono fun _ h => h.givesBack

/-- Elements that come back as they are come back in their places. -/
theorem payloads_of_givesBack {inputs : List Json} {os : List Outcome}
    (h : MayEnd (inputs.map GivesBack) os) :
    os.map Outcome.payload = inputs := by
  rw [MayEnd, List.forall₂_map_left_iff] at h
  have hEach : List.Forall₂ Eq (os.map Outcome.payload) inputs := by
    rw [List.forall₂_map_left_iff]
    exact h.flip.imp fun o input hBack => hBack o rfl
  exact List.forall₂_eq_eq_eq ▸ hEach

/-! ## States -/

/-- No parallel state, and no map with common parameters. -/
def State.Plain : State → Prop
  | .map m => m.paramPaths = []
  | .parallel _ => False
  | .task _ | .switch _ | .repeat _ | .loop _ => True

/-- Without common parameters the inputs of a map are its elements. -/
theorem MapState.get_of_inputs {m : MapState} (hPlain : m.paramPaths = []) {inputs : List Json}
    (h : m.inputs payload = .ok inputs) : Path.get payload m.array = .ok (.arr inputs) := by
  obtain ⟨elements, hGet, ⟨-, rfl⟩ | ⟨hSome, -⟩⟩ := MapState.inputs_eq_ok_iff.mp h
  · exact hGet
  · exact absurd hPlain hSome

/-- A map that gets its elements back has the payload that it had. -/
theorem MapState.keeps_of_echoed {m : MapState} (hPlain : m.paramPaths = [])
    (hInner : ∀ w, m.body = .workflow w →
      ∀ input, (site.enter w input).Meets echoed (GivesBack input))
    (payload : Json) : (m.transition site limits payload).Meets echoed (Keeps payload) := by
  rw [MapState.transition]
  cases hInputs : m.inputs payload with
  | error e => exact Site.meets_keeps_fail payload e
  | ok inputs =>
    refine Process.meets_fork_iff.mpr ⟨inputs.map GivesBack, ?_, fun e _ => ?_, fun os hEnd => ?_⟩
    · rw [List.forall₂_map_left_iff, List.forall₂_map_right_iff, List.forall₂_same]
      intro input _
      cases hBody : m.body with
      | activity activity => exact Site.dispatch_givesBack_of_echoed activity input
      | workflow w => exact hInner w hBody input
    · exact Site.meets_keeps_fail payload e
    · have hSame := Path.set_self (MapState.get_of_inputs hPlain hInputs)
      dsimp only
      rw [payloads_of_givesBack hEnd, hSame]
      exact Process.meets_keeps_value payload

theorem State.Plain.keeps_of_echoed {s : State} (hPlain : s.Plain)
    (hInner : ∀ w, s.Embeds w → ∀ input, (site.enter w input).Meets echoed (GivesBack input))
    (payload : Json) :
    (s.transition site limits payload).Meets echoed (Keeps payload) := by
  cases s with
  | task t => exact Site.repeatCalls_keeps_of_echoed t.activity 1 payload
  | switch sw => exact Process.meets_keeps_value payload
  | map m => exact MapState.keeps_of_echoed hPlain (fun w hBody => hInner w (.body hBody)) payload
  | «repeat» r => exact Site.repeatCalls_keeps_of_echoed r.activity r.count payload
  | loop l => exact LoopState.keeps l payload
  | parallel p => exact hPlain.elim

/-! ## Workflows -/

/-- There are no parallel states and no maps with common parameters, at any level. -/
def Workflow.Plain (w : Workflow) : Prop := ∀ v, w.HasLevel v → ∀ e ∈ v.states, e.2.Plain

theorem Workflow.plain_iff {w : Workflow} :
    w.Plain ↔ (∀ e ∈ w.states, e.2.Plain) ∧ ∀ e ∈ w.states, ∀ v, e.2.Embeds v → v.Plain :=
  Workflow.forall_hasLevel_iff

/-- Wherever it stands, a walk of a plain workflow keeps the payload that it has there. -/
theorem Workflow.Plain.walk_keeps (fuel : Nat) :
    ∀ {w : Workflow}, w.Plain →
      ∀ (ctx : Context) (name : String) (payload : Json) (visited : List String),
      (w.walk limits fuel ctx name payload visited).Meets echoed (Keeps payload) := by
  induction fuel with
  | zero =>
    intro w _ ctx name payload visited
    rw [Workflow.walk, Process.Meets]
    trivial
  | succ fuel ih =>
    intro w hPlain ctx name payload visited
    rw [Workflow.walk_succ]
    cases hState : w.state? name with
    | none => exact (ctx.siteAt limits fuel name).meets_keeps_fail payload _
    | some s =>
      obtain ⟨hOwn, hEmbedded⟩ := Workflow.plain_iff.mp hPlain
      have hInner (v : Workflow) (hEmbeds : s.Embeds v) (input : Json) :
          ((ctx.siteAt limits fuel name).enter v input).Meets echoed (GivesBack input) := by
        change (ctx.enter limits fuel v input).Meets echoed (GivesBack input)
        unfold Context.enter
        split
        · rw [Process.fail, Process.Meets]
          rintro o ⟨⟩
        · exact (ih (hEmbedded _ (Workflow.mem_states hState) v hEmbeds) _ _ input []).mono
            fun _ h => h.givesBack
      dsimp only
      split
      · exact Site.meets_keeps_fail payload _
      · refine Process.Meets.andThen (fun o ho => ?_) (fun e he => he)
          ((hOwn _ (Workflow.mem_states hState)).keeps_of_echoed hInner payload)
        rw [show o.payload = payload from ho]
        split
        · rw [Process.Meets]
          exact rfl
        · exact ih hPlain ctx _ payload _

/-- A dry run, in which every call is answered with its own payload, ends with the payload that
it was started with, the order of all fields included. If it fails, it does so at a state that
was given this payload. -/
theorem Workflow.run_echo {w : Workflow} (hPlain : w.Plain) {limits : Limits} {fuel : Nat}
    {requestId : String} {payload : Json} {e : Execution}
    (hRun : w.run limits .echo fuel requestId payload = some e) :
    (∀ o, e.result = .ok o → o.payload = payload) ∧
      ∀ err, e.result = .error err → ∃ name cause, err = .failedAt name payload cause := by
  have hKeeps : Keeps payload e.result :=
    Workflow.run_meets (Environment.echoed_respond limits.activityTimeout)
      (hPlain.walk_keeps fuel (.top requestId) w.root payload []) hRun
  refine ⟨fun o hOk => ?_, fun err hError => ?_⟩
  · rw [hOk] at hKeeps
    exact hKeeps
  · rw [hError] at hKeeps
    exact hKeeps

/-- What each row of a table goes through. -/
def eachRow : Workflow :=
  ⟨"row", [("row", .map ⟨.activity "f", "cells", some " , ", some 1, some "again"⟩),
    ("again", .repeat ⟨"g", 2, none⟩)]⟩

/-- All kinds of plain states; the body of the map has a map of its own. -/
def plainKinds : Workflow :=
  ⟨"t", [("t", .task ⟨"f", some "l"⟩), ("l", .loop ⟨"g", "b.rows", some "m"⟩),
    ("m", .map ⟨.workflow eachRow, "b.rows", none, none, some "s"⟩),
    ("s", .switch ⟨[⟨"a", .equals, .null, "t"⟩], none⟩)]⟩

/-- A dry run through all of them, and one that fails since the rows are too deep for it. -/
theorem Workflow.run_echo_plainKinds :
    let row : Json := .obj [("z", .null), ("cells", .arr [.int 2, .int 1])]
    let table : Json := .obj [("b", .obj [("rows", .arr [row, row])]), ("a", .bool true)]
    plainKinds.Plain ∧
      (∃ e o, plainKinds.run ⟨1, some 0, some 3⟩ .echo 8 "r" table = some e ∧
        e.result = .ok o ∧ o.trace = ["t", "l", "m", "s"] ∧ o.payload = table) ∧
      ∃ e err, plainKinds.run ⟨0, none, none⟩ .echo 8 "r" table = some e ∧
        e.result = .error err ∧ ∃ name cause, err = .failedAt name table cause := by
  intro row table
  have hRow : eachRow.Plain := by
    refine Workflow.plain_iff.mpr ⟨fun e hState => ?_, fun e hState v hEmbeds => ?_⟩
    · rcases hState with _ | ⟨_, _ | ⟨_, ⟨⟩⟩⟩
      · exact rfl
      · trivial
    · rcases hState with _ | ⟨_, _ | ⟨_, ⟨⟩⟩⟩
      · rcases hEmbeds with ⟨⟨⟩⟩
      · cases hEmbeds
  have hPlain : plainKinds.Plain := by
    refine Workflow.plain_iff.mpr ⟨fun e hState => ?_, fun e hState v hEmbeds => ?_⟩
    · rcases hState with _ | ⟨_, _ | ⟨_, _ | ⟨_, _ | ⟨_, ⟨⟩⟩⟩⟩⟩
      · trivial
      · trivial
      · exact rfl
      · trivial
    · rcases hState with _ | ⟨_, _ | ⟨_, _ | ⟨_, _ | ⟨_, ⟨⟩⟩⟩⟩⟩
      · cases hEmbeds
      · cases hEmbeds
      · rcases hEmbeds with ⟨⟨⟩⟩
        exact hRow
      · cases hEmbeds
  refine ⟨hPlain, ?_, ?_⟩
  · obtain ⟨e, o, hRun, hOk, hTrace⟩ : ∃ e o,
        plainKinds.run ⟨1, some 0, some 3⟩ .echo 8 "r" table = some e ∧ e.result = .ok o ∧
          o.trace = ["t", "l", "m", "s"] := ⟨_, _, rfl, rfl, rfl⟩
    exact ⟨e, o, hRun, hOk, hTrace, (Workflow.run_echo hPlain hRun).1 o hOk⟩
  · obtain ⟨e, err, hRun, hError⟩ : ∃ e err,
        plainKinds.run ⟨0, none, none⟩ .echo 8 "r" table = some e ∧ e.result = .error err :=
      ⟨_, _, rfl, rfl⟩
    exact ⟨e, err, hRun, hError, (Workflow.run_echo hPlain hRun).2 err hError⟩

end Orchestration
