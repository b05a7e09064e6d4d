import Mathlib.Data.List.Chain
import Orchestration.Proofs.Run.Kept
import Orchestration.Proofs.Run.Sequence
import Orchestration.Proofs.Workflow.Soundness

/-!
# Visits

A run that ends well is a walk along the states of its workflow: each state starts with
the payload and in the world that the state before it has ended with, and it is the one
that this state has chosen.

* `State.chooses_iff`: the successor is the one of the first case that holds, or the default, or
  there is nothing to choose.
* `Workflow.walk_itinerary`: the visits of a walk, wherever it starts.
* `Workflow.run_itinerary`: those of a run.
-/

namespace Orchestration

variable {payload : Json}

/-! ## Choices -/

/-- There is a value for the case to look at, and it can be compared: the case
holds or it does not. -/
def Case.Evaluates (c : Case) (payload : Json) (verdict : Bool) : Prop :=
  ∃ v, Path.get payload c.var = .ok v ∧ Comparison.holds? v c.op c.val = some verdict

/-- The successors that a state may choose when it has been given the payload. -/
inductive State.Chooses (payload : Json) : State → Option String → Prop
  | only {s : State} (hKind : s.kind ≠ .switch) : Chooses payload s s.next?
  | case {sw : SwitchState} {earlier later : List Case} {c : Case}
      (hCases : sw.cases = earlier ++ c :: later)
      (hEarlier : ∀ c' ∈ earlier, c'.Evaluates payload false)
      (hHolds : c.Evaluates payload true) :
      Chooses payload (.switch sw) (some c.next)
  | default {sw : SwitchState} (hCases : ∀ c ∈ sw.cases, c.Evaluates payload false) :
      Chooses payload (.switch sw) sw.default

theorem chooseCase_cons {c : Case} {verdict : Bool} (h : c.Evaluates payload verdict)
    (default : Option String) (rest : List Case) :
    chooseCase payload default (c :: rest) =
      if verdict then .ok (some c.next) else chooseCase payload default rest := by
  obtain ⟨v, hGet, hHolds⟩ := h
  rw [chooseCase, hGet]
  dsimp only
  rw [hHolds]
  cases verdict <;> rfl

/-- Cases that do not hold are passed over. -/
theorem chooseCase_append {earlier : List Case} (h : ∀ c ∈ earlier, c.Evaluates payload false)
    (default : Option String) (rest : List Case) :
    chooseCase payload default (earlier ++ rest) = chooseCase payload default rest := by
  induction earlier with
  | nil => rfl
  | cons c earlier ih =>
    obtain ⟨hFirst, hEarlier⟩ := List.forall_mem_cons.mp h
    exact (chooseCase_cons hFirst default _).trans (ih hEarlier)

/-- What is chosen comes from the first case that holds, or it is the default. -/
theorem chooseCase_eq_ok {default next : Option String} {cases : List Case}
    (h : chooseCase payload default cases = .ok next) :
    (∃ earlier c later, cases = earlier ++ c :: later ∧
      (∀ c' ∈ earlier, c'.Evaluates payload false) ∧
        c.Evaluates payload true ∧ next = some c.next) ∨
      (∀ c ∈ cases, c.Evaluates payload false) ∧ next = default := by
  induction cases with
  | nil =>
    cases h
    exact .inr ⟨List.forall_mem_nil _, rfl⟩
  | cons c rest ih =>
    rw [chooseCase] at h
    split at h
    · cases h
    · rename_i v hGet
      split at h
      · cases h
      · rename_i hHolds
        cases h
        exact .inl ⟨[], c, rest, rfl, List.forall_mem_nil _, ⟨v, hGet, hHolds⟩, rfl⟩
      · rename_i hHolds
        have hFirst : c.Evaluates payload false := ⟨v, hGet, hHolds⟩
        rcases ih h with ⟨earlier, c', later, rfl, hEarlier, hTrue, hNext⟩ | ⟨hRest, hNext⟩
        · exact .inl ⟨c :: earlier, c', later, rfl, List.forall_mem_cons.mpr ⟨hFirst, hEarlier⟩,
            hTrue, hNext⟩
        · exact .inr ⟨List.forall_mem_cons.mpr ⟨hFirst, hRest⟩, hNext⟩

theorem State.chooses_iff {s : State} {next : Option String} :
    s.Chooses payload next ↔ s.successor payload = .ok next := by
  constructor
  · rintro (hKind | ⟨hCases, hEarlier, hHolds⟩ | hCases)
    · cases s with
      | switch sw => exact absurd rfl hKind
      | _ => rfl
    · rw [State.successor, SwitchState.choose, hCases, chooseCase_append hEarlier,
        chooseCase_cons hHolds]
      rfl
    · rw [State.successor, SwitchState.choose, ← List.append_nil (SwitchState.cases _),
        chooseCase_append hCases]
      rfl
  · intro h
    cases s with
    | switch sw =>
      rcases chooseCase_eq_ok h with ⟨earlier, c, later, hCases, hEarlier, hHolds, rfl⟩
        | ⟨hCases, rfl⟩
      · exact .case hCases hEarlier hHolds
      · exact .default hCases
    | _ =>
      cases h
      exact .only (by rintro ⟨⟩)

/-- There is one choice at most. -/
theorem State.Chooses.unique {s : State} {next next' : Option String} (h : s.Chooses payload next)
    (h' : s.Chooses payload next') : next = next' :=
  Except.ok.inj ((State.chooses_iff.mp h).symm.trans (State.chooses_iff.mp h'))

/-! ## Visits -/

/-- A state that is visited, with the payload and the world at the start and at
the end of the visit. -/
structure Visit where
  name : String
  state : State
  before : Json
  start : World
  after : Json
  finish : World

namespace Visit

variable {env : Environment} {limits : Limits} {ctx : Context} {w : Workflow}

/-- The state is one of the workflow, and its transition leads from the start to
the end of the visit. -/
structure IsOf (v : Visit) (env : Environment) (limits : Limits) (ctx : Context)
    (w : Workflow) : Prop where
  declared : w.state? v.name = some v.state
  carried : ∃ fuel o, o.payload = v.after ∧
    (v.state.transition (ctx.siteAt limits fuel v.name) limits v.before).EndsIn env v.start
    (.ok o) v.finish
  /-- Switches and loops hand on the payload that they were given. -/
  kept : v.state.kind = .switch ∨ v.state.kind = .loop → v.after = v.before

/-- The second visit is the one that comes after the first one. -/
structure Precedes (v v' : Visit) : Prop where
  target : v'.name ∈ v.state.targets
  chosen : v.state.Chooses v.before (some v'.name)
  handedOn : v'.before = v.after
  seamless : v'.start = v.finish

end Visit

/-- The payload of a process that ends well satisfies what all its ends satisfy. -/
theorem Process.EndsIn.meets {env : Environment} {p : Process} {start finish : World}
    {result : Except RunError Outcome} {Q : Post} (h : p.EndsIn env start result finish)
    (hMeets : p.Meets anyAnswer Q) : Q result := by
  obtain ⟨steps, hSettle⟩ := h
  have hAny : ∀ w r, anyAnswer r (env.respond w r).answer := fun _ _ => trivial
  exact Strand.settle_meets hAny steps (Process.start_meets hAny p Q start hMeets) hSettle

section

variable {env : Environment} {limits : Limits} {ctx : Context} {w : Workflow}

theorem State.payload_kept {site : Site} {s : State} (hKind : s.kind = .switch ∨ s.kind = .loop)
    {start finish : World} {o : Outcome}
    (h : (s.transition site limits payload).EndsIn env start (.ok o) finish) :
    o.payload = payload := by
  cases s with
  | switch sw => exact h.meets (Process.meets_keeps_value payload)
  | loop l => exact h.meets (LoopState.keeps l payload)
  | _ => rcases hKind with ⟨⟨⟩⟩ | ⟨⟨⟩⟩

/-! ## Itineraries -/

/-- The visits of a walk that goes from a state on to the end: the first one is at this state, each
one leads to the next, and the last one is the first at which no successor is chosen. -/
structure Workflow.Itinerary (w : Workflow) (env : Environment) (limits : Limits) (ctx : Context)
    (name : String) (payload : Json) (start : World) (visits : List Visit) (result : Json)
    (finish : World) : Prop where
  each : ∀ v ∈ visits, v.IsOf env limits ctx w
  follows : visits.IsChain Visit.Precedes
  first : ∃ v ∈ visits.head?, v.name = name ∧ v.before = payload ∧ v.start = start
  goesOn : ∀ v ∈ visits.dropLast, ¬ v.state.Chooses v.before none
  last : ∃ v ∈ visits.getLast?, v.state.Chooses v.before none ∧ v.after = result ∧ v.finish = finish

namespace Workflow

theorem Itinerary.single {v : Visit} (hVisit : v.IsOf env limits ctx w)
    (hChosen : v.state.Chooses v.before none) :
    w.Itinerary env limits ctx v.name v.before v.start [v] v.after v.finish where
  each := List.forall_mem_singleton.mpr hVisit
  follows := .singleton v
  first := ⟨v, rfl, rfl, rfl, rfl⟩
  goesOn := List.forall_mem_nil _
  last := ⟨v, rfl, hChosen, rfl, rfl⟩

theorem Itinerary.cons {v : Visit} {next : String} {visits : List Visit} {result : Json}
    {finish : World} (hVisit : v.IsOf env limits ctx w)
    (hChosen : v.state.Chooses v.before (some next))
    (h : w.Itinerary env limits ctx next v.after v.finish visits result finish) :
    w.Itinerary env limits ctx v.name v.before v.start (v :: visits) result finish := by
  obtain ⟨second, hHead, rfl, hBefore, hStart⟩ := h.first
  obtain ⟨last, hLast, hEnd⟩ := h.last
  obtain ⟨rest, rfl⟩ := List.head?_eq_some_iff.mp hHead
  constructor
  · exact List.forall_mem_cons.mpr ⟨hVisit, h.each⟩
  · have hPrecedes : v.Precedes second :=
      ⟨State.successor_mem (State.chooses_iff.mp hChosen), hChosen, hBefore, hStart⟩
    exact .cons_cons hPrecedes h.follows
  · exact ⟨v, rfl, rfl, rfl, rfl⟩
  · rw [List.dropLast_cons_cons]
    refine List.forall_mem_cons.mpr ⟨fun hNone => ?_, h.goesOn⟩
    cases hChosen.unique hNone
  · exact ⟨last, hLast, hEnd⟩

/-- A walk that ends well has visited states from where it started, and its trace names them. -/
theorem walk_itinerary (fuel : Nat) :
    ∀ {name : String} {payload : Json} {visited : List String} {start finish : World} {o : Outcome},
      (w.walk limits fuel ctx name payload visited).EndsIn env start (.ok o) finish →
      ∃ visits, w.Itinerary env limits ctx name payload start visits o.payload finish ∧
        o.trace = visited.reverse ++ visits.map Visit.name := by
  induction fuel with
  | zero =>
    rintro name payload visited start finish o ⟨steps, hSettle⟩
    rw [walk, Process.start] at hSettle
    cases steps <;> cases hSettle
  | succ fuel ih =>
    intro name payload visited start finish o h
    cases hState : w.state? name with
    | none =>
      rw [walk_succ, hState] at h
      cases h.of_done.1
    | some s =>
      rw [walk_of_state hState] at h
      cases hNext : s.successor payload with
      | error e =>
        rw [hNext] at h
        cases h.of_done.1
      | ok next =>
        rw [hNext] at h
        have hChosen := State.chooses_iff.mpr hNext
        rcases h.of_andThen with ⟨e, ⟨⟩, -⟩ | ⟨o', between, hCarried, hRest⟩
        let v : Visit := ⟨name, s, payload, start, o'.payload, between⟩
        have hVisit : v.IsOf env limits ctx w :=
          ⟨hState, ⟨fuel, o', rfl, hCarried⟩, fun hKind => State.payload_kept hKind hCarried⟩
        cases next with
        | none =>
          obtain ⟨⟨⟩, rfl⟩ := hRest.of_done
          exact ⟨[v], .single hVisit hChosen, by simp [v]⟩
        | some next =>
          obtain ⟨visits, hItinerary, hTrace⟩ := ih hRest
          exact ⟨v :: visits, .cons hVisit hChosen hItinerary, by simp [hTrace, v]⟩

/-- The trace of a run that ends well names the states along a walk from the root: each is a target
of the one before, its only successor or the one that a switch has chosen for the payload at that
moment, and the last one is the first at which there is nothing to go on to. Time, calls and payload
go through the visits in this order, from the start of the run to its end, and switches and loops
leave the payload as it is. -/
theorem run_itinerary {caller : Caller} {fuel : Nat} {requestId : String} {e : Execution}
    {o : Outcome} (hRun : w.run limits caller fuel requestId payload = some e)
    (hOk : e.result = .ok o) :
    ∃ visits, o.trace = visits.map Visit.name ∧
      w.Itinerary ⟨caller, limits.activityTimeout⟩ limits (.top requestId) w.root payload
        ⟨0, []⟩ visits o.payload ⟨e.elapsed, e.calls.reverse⟩ := by
  unfold run at hRun
  obtain ⟨⟨result, finish⟩, hSettle, rfl⟩ := Option.map_eq_some_iff.mp hRun
  cases hOk
  obtain ⟨visits, hItinerary, hTrace⟩ := walk_itinerary fuel ⟨fuel, hSettle⟩
  refine ⟨visits, hTrace, ?_⟩
  rw [List.reverse_reverse]
  exact hItinerary

end Workflow

end

/-- Answers each call with how many were made before it, and with some rows; the
calls of `h` take no time. -/
def tally : Caller := fun past r =>
  ⟨.ok (.obj [("n", .int past.length), ("rows", .arr [.null, .null])]),
    if r.activity = "h" then 0 else 1⟩

/-- A task that is left by a switch after a second time, and then a loop and a map
with a body of its own. -/
def secondRound : Workflow :=
  ⟨"t", [("t", .task ⟨"f", some "s"⟩),
    ("s", .switch ⟨[⟨"n", .greaterThan, .int 1, "m"⟩, ⟨"n", .lessThan, .int 1, "t"⟩], some "l"⟩),
    ("l", .loop ⟨"g", "rows", some "m"⟩),
    ("m", .map ⟨.workflow ⟨"row", [("row", .task ⟨"h", none⟩)]⟩, "rows", none, none, none⟩)]⟩

theorem Workflow.run_itinerary_secondRound :
    ∃ e o visits, secondRound.run ⟨1, none, none⟩ tally 12 "r" .null = some e ∧ e.result = .ok o ∧
      o.trace = ["t", "s", "t", "s", "l", "m"] ∧ o.trace = visits.map Visit.name ∧
      secondRound.Itinerary ⟨tally, none⟩ ⟨1, none, none⟩ (.top "r") "t" .null ⟨0, []⟩
        visits o.payload ⟨e.elapsed, e.calls.reverse⟩ := by
  obtain ⟨e, o, hRun, hOk, hTrace⟩ :
      ∃ e o, secondRound.run ⟨1, none, none⟩ tally 12 "r" .null = some e ∧
      e.result = .ok o ∧ o.trace = ["t", "s", "t", "s", "l", "m"] := ⟨_, _, rfl, rfl, rfl⟩
  obtain ⟨visits, hNames, hItinerary⟩ := Workflow.run_itinerary hRun hOk
  exact ⟨e, o, visits, hRun, hOk, hTrace, hNames, hItinerary⟩

end Orchestration
