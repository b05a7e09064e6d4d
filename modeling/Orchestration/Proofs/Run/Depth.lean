import Orchestration.Proofs.Run.Failures

/-!
# The depth of runs

A workflow inside another one runs one level deeper, and the limit says how deep that may be.

* `Workflow.walkTapped` is a walk in which whatever is run as a workflow inside is passed through a
  tap. A tap that only touches what runs deeper than the limit touches nothing.
* `RunError.WithinDepth`: how many failures may stand inside one another, and how many must if the
  limit is what they come from.
* `Workflow.run_withinDepth`: both for whole runs. If workflows are not nested deeper than the limit
  says, no run fails by it.
-/

namespace Orchestration

variable {limits : Limits}

/-! ## Workflows inside -/

/-- A walk in which each workflow inside is passed through a tap, with the
context that it runs in. -/
def Workflow.walkTapped (tap : Context → Process → Process) (limits : Limits) :
    Nat → Context → Workflow → String → Json → List String → Process
  | 0, _, _, _, _, _ => .exhausted
  | fuel + 1, ctx, w, name, payload, visited =>
    match w.state? name with
    | none => .fail (.failedAt name payload (.unknownState name))
    | some s =>
      let enter (inner : Workflow) (input : Json) : Process :=
        match ctx.nested? limits.maxDepth with
        | none => .fail (.depthExceeded limits.maxDepth)
        | some child => tap child (walkTapped tap limits fuel child inner inner.root input [])
      let site : Site := ⟨name, ctx.requestId, enter⟩
      match s.successor payload with
      | .error e => site.fail payload e
      | .ok next =>
        (s.transition site limits payload).andThen fun o =>
          match next with
          | none => .done (.ok ⟨o.payload, (name :: visited).reverse⟩)
          | some next => walkTapped tap limits fuel ctx w next o.payload (name :: visited)

def Workflow.runTapped (tap : Context → Process → Process) (w : Workflow) (limits : Limits)
    (caller : Caller) (fuel : Nat) (requestId : String) (payload : Json) : Option Execution :=
  let env : Environment := ⟨caller, limits.activityTimeout⟩
  let p := w.walkTapped tap limits fuel (.top requestId) w.root payload []
  let (s, world) := p.start env ⟨0, []⟩
  (s.settle env fuel world).map fun (result, world) =>
    ⟨requestId, result, world.past.reverse, world.now⟩

/-- A context inside another one is one level deeper, and not below the limit. -/
theorem Context.nested?_eq_some {ctx child : Context} {limit : Nat}
    (h : ctx.nested? limit = some child) :
    child.depth = ctx.depth + 1 ∧ child.depth ≤ limit := by
  unfold Context.nested? at h
  split at h
  · rename_i hRoom
    cases h
    exact ⟨rfl, hRoom⟩
  · cases h

theorem Context.nested?_eq_none {ctx : Context} {limit : Nat} (h : ctx.nested? limit = none) :
    limit ≤ ctx.depth := by
  unfold Context.nested? at h
  split at h
  · cases h
  · omega

theorem Workflow.walkTapped_eq_walk {tap : Context → Process → Process}
    (hTap : ∀ ctx p, ctx.depth ≤ limits.maxDepth → tap ctx p = p) (fuel : Nat) :
    ∀ (ctx : Context) (w : Workflow) (name : String) (payload : Json) (visited : List String),
      w.walkTapped tap limits fuel ctx name payload visited =
        w.walk limits fuel ctx name payload visited := by
  induction fuel with
  | zero =>
    intro ctx w name payload visited
    rfl
  | succ fuel ih =>
    intro ctx w name payload visited
    have hEnter : (fun (inner : Workflow) (input : Json) =>
        match ctx.nested? limits.maxDepth with
        | none => Process.fail (.depthExceeded limits.maxDepth)
        | some child => tap child (inner.walkTapped tap limits fuel child inner.root input [])) =
        ctx.enter limits fuel := by
      funext inner input
      unfold Context.enter
      cases hChild : ctx.nested? limits.maxDepth with
      | none => rfl
      | some child =>
        dsimp only
        rw [hTap child _ (Context.nested?_eq_some hChild).2]
        exact ih _ _ _ _ _
    rw [Workflow.walkTapped, Workflow.walk_succ]
    dsimp only
    rw [hEnter]
    cases w.state? name with
    | none => rfl
    | some s =>
      dsimp only [Context.siteAt]
      cases s.successor payload with
      | error e => rfl
      | ok next =>
        dsimp only
        congr 1
        funext o
        cases next with
        | none => rfl
        | some next => exact ih _ _ _ _ _

/-! ## Failures inside one another -/

/-- A failure of a workflow that runs at a depth: the failures inside one another end at the limit,
and they go as far if the limit was the cause, which is then not below `reach`. -/
structure RunError.WithinDepth (limit depth reach : Nat) (e : RunError) : Prop where
  length : depth + e.states.length ≤ limit + 1
  exceeded : ∀ l, e.rootCause = .depthExceeded l →
    l = limit ∧ depth + e.states.length = limit + 1 ∧ limit < reach

namespace RunError.WithinDepth

variable {limit depth reach : Nat}

theorem mono {e : RunError} (h : e.WithinDepth limit depth reach) {reach' : Nat}
    (hReach : reach ≤ reach') :
    e.WithinDepth limit depth reach' := by
  refine ⟨h.length, fun l hl => ?_⟩
  obtain ⟨hLimit, hLength, hLt⟩ := h.exceeded l hl
  exact ⟨hLimit, hLength, Nat.lt_of_lt_of_le hLt hReach⟩

theorem own {e : RunError} (h : e.Own) (hDepth : depth ≤ limit) :
    e.WithinDepth limit (depth + 1) reach := by
  have hStates : e.states = [] := by
    rcases h with ⟨⟨⟩⟩ | _ | _ | _ <;> rfl
  have hCause : ∀ l, e.rootCause ≠ .depthExceeded l := by
    rcases h with ⟨⟨⟩⟩ | _ | _ | _ <;> rintro l ⟨⟩
  refine ⟨?_, fun l hl => absurd hl (hCause l)⟩
  rw [hStates, List.length_nil]
  omega

theorem depthExceeded (hReach : limit < reach) :
    (RunError.depthExceeded limit).WithinDepth limit (limit + 1) reach := by
  refine ⟨Nat.le_refl _, fun l hl => ?_⟩
  cases hl
  exact ⟨rfl, rfl, hReach⟩

/-- A failure at a state is one level above its cause. -/
theorem failedAt {cause : RunError} (h : cause.WithinDepth limit (depth + 1) reach) (state : String)
    (payload : Json) : (RunError.failedAt state payload cause).WithinDepth limit depth reach := by
  have hLength : (RunError.failedAt state payload cause).states.length = cause.states.length + 1 :=
    rfl
  refine ⟨?_, fun l hl => ?_⟩
  · have hBelow := h.length
    omega
  · obtain ⟨hLimit, hBelow, hReach⟩ := h.exceeded l hl
    exact ⟨hLimit, by omega, hReach⟩

end RunError.WithinDepth

/-- A walk at a depth within the limit fails within it, and it reaches down as far as it nests. -/
theorem Workflow.walk_withinDepth (fuel : Nat) :
    ∀ {ctx : Context} {w : Workflow} (name : String) (payload : Json) (visited : List String),
      ctx.depth ≤ limits.maxDepth →
        (w.walk limits fuel ctx name payload visited).Meets (fun _ _ => True)
          (FailsBy (RunError.WithinDepth limits.maxDepth ctx.depth (ctx.depth + w.nesting))) := by
  induction fuel with
  | zero =>
    intro ctx w name payload visited _
    rw [Workflow.walk, Process.Meets]
    trivial
  | succ fuel ih =>
    intro ctx w name payload visited hDepth
    have hTurns : (ctx.siteAt limits fuel name).Turns
        (RunError.WithinDepth limits.maxDepth (ctx.depth + 1) (ctx.depth + w.nesting))
        (RunError.WithinDepth limits.maxDepth ctx.depth (ctx.depth + w.nesting)) :=
      ⟨fun e he => .own he hDepth, fun payload cause h => h.failedAt _ payload⟩
    rw [Workflow.walk_succ]
    cases hState : w.state? name with
    | none => exact hTurns.fail (hTurns.own _ (.unknownState name)) payload
    | some s =>
      dsimp only
      cases hNext : s.successor payload with
      | error e =>
        exact hTurns.fail (hTurns.own _ (.ofPayload (State.successor_ofPayload hNext))) payload
      | ok next =>
        have hInner : (ctx.siteAt limits fuel name).InnerFails (fun _ _ => True)
            (RunError.WithinDepth limits.maxDepth (ctx.depth + 1) (ctx.depth + w.nesting)) s := by
          intro inner hNests input
          -- The workflow inside nests less than the state, which makes up for the
          -- level that it is deeper.
          have hLess := hNests.nesting_lt
          have hState := Workflow.nesting_le_of_mem (Workflow.mem_states hState)
          change (ctx.enter limits fuel inner input).Meets _ _
          unfold Context.enter
          cases hChild : ctx.nested? limits.maxDepth with
          | none =>
            have hFull : ctx.depth = limits.maxDepth :=
              Nat.le_antisymm hDepth (Context.nested?_eq_none hChild)
            rw [hFull]
            exact Process.meets_failsBy_fail (.depthExceeded (by omega))
          | some child =>
            obtain ⟨hOne, hChildDepth⟩ := Context.nested?_eq_some hChild
            refine (ih inner.root input [] hChildDepth).mono fun r hr e he => ?_
            rw [← hOne]
            exact (hr e he).mono (by omega)
        refine Process.Meets.andThen (fun o _ => ?_) (fun e he => he)
          (State.meets_failsBy hTurns hInner payload)
        cases next with
        | none =>
          rw [Process.Meets]
          rintro e ⟨⟩
        | some next => exact ih next o.payload _ hDepth

/-! ## Runs -/

/-- Nothing runs deeper than the limit: what is done to workflows there changes no run. So failures
stand inside one another on at most one level more than the limit says, and on all of these levels
if the limit is the cause. It never is if the workflow is not nested deeper than the limit. -/
theorem Workflow.run_withinDepth (w : Workflow) (limits : Limits) (caller : Caller) (fuel : Nat)
    (requestId : String) (payload : Json) :
    (∀ tap : Context → Process → Process,
      (∀ ctx p, ctx.depth ≤ limits.maxDepth → tap ctx p = p) →
      w.runTapped tap limits caller fuel requestId payload =
        w.run limits caller fuel requestId payload) ∧
    ∀ (e : Execution) (err : RunError), w.run limits caller fuel requestId payload = some e →
      e.result = .error err →
        err.states.length ≤ limits.maxDepth + 1 ∧
        (∀ limit, err.rootCause = .depthExceeded limit →
          limit = limits.maxDepth ∧ err.states.length = limits.maxDepth + 1) ∧
        (w.nesting ≤ limits.maxDepth → ∀ limit, err.rootCause ≠ .depthExceeded limit) := by
  refine ⟨fun tap hTap => ?_, fun e err hRun hError => ?_⟩
  · unfold Workflow.runTapped Workflow.run
    rw [Workflow.walkTapped_eq_walk hTap]
    rfl
  · have hTop : (Context.top requestId).depth ≤ limits.maxDepth := Nat.zero_le _
    have hMeets := Workflow.walk_withinDepth (w := w) fuel w.root payload [] hTop
    have hWithin := Workflow.run_meets (fun _ _ => trivial) hMeets hRun err hError
    have hLength := hWithin.length
    have hExceeded := hWithin.exceeded
    simp only [Context.top, Nat.zero_add] at hLength hExceeded
    refine ⟨hLength, fun limit hCause => ?_, fun hNesting limit hCause => ?_⟩
    · exact ⟨(hExceeded limit hCause).1, (hExceeded limit hCause).2.1⟩
    · exact absurd (hExceeded limit hCause).2.2 (Nat.not_lt_of_le hNesting)

/-- A map whose body is a parallel state with a branch of two tasks. -/
def twoLevels : Workflow :=
  ⟨"m", [("m", .map ⟨.workflow ⟨"p", [("p", .parallel ⟨[⟨none, ⟨"t", [("t", .task ⟨"f", some "u"⟩),
    ("u", .task ⟨"g", none⟩)]⟩⟩], none⟩)]⟩, "xs", none, none, none⟩)]⟩

def refusing : Answers := fun activity _ => .error (.failed activity "refused")

/-- One level is too few for two tasks of a branch in the body of a map, two levels are enough. -/
theorem Workflow.run_withinDepth_twoLevels :
    let payload : Json := .single "xs" (.arr [.int 1])
    let cut : Context → Process → Process := fun ctx p => if ctx.depth ≤ 1 then p else .exhausted
    let run :=
      fun depth => twoLevels.run ⟨depth, none, none⟩ (refusing.caller fun _ => 0) 9 "r" payload
    (∀ ctx p, ctx.depth ≤ 1 → cut ctx p = p) ∧
      twoLevels.runTapped cut ⟨1, none, none⟩ (refusing.caller fun _ => 0) 9 "r" payload = run 1 ∧
      (∃ e err, run 1 = some e ∧ e.result = .error err ∧ err.rootCause = .depthExceeded 1 ∧
        err.states.length = 2) ∧
      twoLevels.nesting ≤ 2 ∧
      ∃ e err, run 2 = some e ∧ e.result = .error err ∧
      ∀ limit, err.rootCause ≠ .depthExceeded limit := by
  intro payload cut run
  have hCut : ∀ ctx p, ctx.depth ≤ 1 → cut ctx p = p := fun ctx p h => if_pos h
  have hNesting : twoLevels.nesting ≤ 2 := by decide
  obtain ⟨hTapped, hOne⟩ :=
    Workflow.run_withinDepth twoLevels ⟨1, none, none⟩ (refusing.caller fun _ => 0) 9 "r" payload
  obtain ⟨-, hTwo⟩ :=
    Workflow.run_withinDepth twoLevels ⟨2, none, none⟩ (refusing.caller fun _ => 0) 9 "r" payload
  refine ⟨hCut, hTapped cut hCut, ?_, hNesting, ?_⟩
  · obtain ⟨e, err, hRun, hError, hCause⟩ : ∃ e err, run 1 = some e ∧ e.result = .error err ∧
        err.rootCause = .depthExceeded 1 := ⟨_, _, rfl, rfl, rfl⟩
    exact ⟨e, err, hRun, hError, hCause, ((hOne e err hRun hError).2.1 1 hCause).2⟩
  · obtain ⟨e, err, hRun, hError⟩ : ∃ e err, run 2 = some e ∧ e.result = .error err :=
      ⟨_, _, rfl, rfl⟩
    exact ⟨e, err, hRun, hError, (hTwo e err hRun hError).2.2 hNesting⟩

end Orchestration
