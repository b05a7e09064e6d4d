import Orchestration.Proofs.Run.Congruence

/-!
# Processes that are cut off

Under a limit a process does what it does without one, until something fails. `Process.CutOf` says
this of two processes: as long as calls and strands end well they make the same calls and forks, and
where the first one fails nothing is said of the second.

`Workflow.walk_cutOf`: the limit on the depth of nesting does no more to a walk than this.
-/

namespace Orchestration

/-! ## Two processes -/

/-- A failure ends whatever goes on with it. -/
def FailsOn {ε α : Type} (next : Except ε α → Process) : Prop :=
  ∀ e, ∃ e', next (.error e) = .fail e'

theorem FailsOn.of_both {ε α : Type} {next next' : Except ε α → Process}
    (h : ∀ e, ∃ e', next (.error e) = .fail e' ∧ next' (.error e) = .fail e') : FailsOn next := by
  intro e
  obtain ⟨e', hFail, -⟩ := h e
  exact ⟨e', hFail⟩

mutual

/-- The first process is the second one, cut off where it fails. -/
def Process.CutOf : Process → Process → Prop
  | .done (.ok o), p' => p' = .done (.ok o)
  | .done (.error _), _ | .exhausted, _ => True
  | .call r next, p' => ∃ next', p' = .call r next' ∧ FailsOn next ∧
      ∀ v, (next (.ok v)).CutOf (next' (.ok v))
  | .fork width strands next, p' =>
    ∃ strands' next', p' = .fork width strands' next' ∧ FailsOn next ∧
        allCutOf strands strands' ∧ ∀ os, (next (.ok os)).CutOf (next' (.ok os))

/-- `Process.CutOf` for the processes of two lists, one by one. -/
def allCutOf : List Process → List Process → Prop
  | [], ps' => ps' = []
  | p :: rest, ps' => ∃ p' rest', p.CutOf p' ∧ allCutOf rest rest' ∧ ps' = p' :: rest'

end

theorem allCutOf_iff {ps ps' : List Process} : allCutOf ps ps' ↔
    List.Forall₂ Process.CutOf ps ps' := by
  induction ps generalizing ps' with
  | nil => simp [allCutOf]
  | cons p rest ih => simp [allCutOf, List.forall₂_cons_left_iff, ih]

theorem Process.cutOf_value (payload : Json) : (Process.value payload).CutOf (.value payload) := by
  rw [Process.value, Process.CutOf]

theorem Process.cutOf_fail (e : RunError) (p : Process) : (Process.fail e).CutOf p := by
  rw [Process.fail, Process.CutOf]
  trivial

theorem Process.cutOf_call {r : Request} {next next' : Except ActivityError Json → Process}
    (hFails : FailsOn next) (h : ∀ v, (next (.ok v)).CutOf (next' (.ok v))) :
    (Process.call r next).CutOf (.call r next') := by
  rw [Process.CutOf]
  exact ⟨next', rfl, hFails, h⟩

theorem Process.cutOf_fork {width : Width} {strands strands' : List Process}
    {next next' : Except RunError (List Outcome) → Process} (hFails : FailsOn next)
    (hStrands : List.Forall₂ Process.CutOf strands strands')
    (h : ∀ os, (next (.ok os)).CutOf (next' (.ok os))) :
    (Process.fork width strands next).CutOf (.fork width strands' next') := by
  rw [Process.CutOf]
  exact ⟨strands', next', rfl, hFails, allCutOf_iff.mpr hStrands, h⟩

theorem FailsOn.andThen {ε α : Type} {next : Except ε α → Process} (h : FailsOn next)
    (f : Outcome → Process) : FailsOn fun r => (next r).andThen f := by
  intro e
  obtain ⟨e', hEnd⟩ := h e
  refine ⟨e', ?_⟩
  dsimp only
  rw [hEnd]
  rfl

/-- What goes on after a success is cut off later. -/
theorem Process.CutOf.andThen {f f' : Outcome → Process} (hf : ∀ o, (f o).CutOf (f' o)) :
    ∀ {p p' : Process}, p.CutOf p' → (p.andThen f).CutOf (p'.andThen f')
  | .done (.ok o), p', h => by
    rw [Process.CutOf] at h
    rw [h]
    exact hf o
  | .done (.error e), p', _ => Process.cutOf_fail e _
  | .exhausted, p', _ => by
    rw [Process.andThen, Process.CutOf]
    trivial
  | .call r next, p', h => by
    rw [Process.CutOf] at h
    obtain ⟨next', rfl, hFails, hNext⟩ := h
    exact Process.cutOf_call (hFails.andThen f) fun v => Process.CutOf.andThen hf (hNext v)
  | .fork width strands next, p', h => by
    rw [Process.CutOf] at h
    obtain ⟨strands', next', rfl, hFails, hStrands, hNext⟩ := h
    exact Process.cutOf_fork (hFails.andThen f) (allCutOf_iff.mp hStrands) fun os =>
      Process.CutOf.andThen hf (hNext os)

theorem Process.cutOf_congruence : Process.Congruence Process.CutOf where
  value := Process.cutOf_value
  fail e := Process.cutOf_fail e (.fail e)
  call hOk hError := Process.cutOf_call (FailsOn.of_both hError) hOk
  fork hStrands hOk hError := Process.cutOf_fork (FailsOn.of_both hError) hStrands hOk

/-! ## Walks -/

/-- A walk that may nest less deep is one that may nest deeper, cut off where
the limit is reached. -/
theorem Workflow.walk_cutOf {limits limits' : Limits} (hDepth : limits.maxDepth ≤ limits'.maxDepth)
    (hConcurrency : limits.mapConcurrency = limits'.mapConcurrency) (fuel : Nat) :
    ∀ (ctx : Context) (w : Workflow) (name : String) (payload : Json) (visited : List String),
      (w.walk limits fuel ctx name payload visited).CutOf
        (w.walk limits' fuel ctx name payload visited) := by
  induction fuel with
  | zero =>
    intro ctx w name payload visited
    rw [Workflow.walk, Process.CutOf]
    trivial
  | succ fuel ih =>
    intro ctx w name payload visited
    have hSite :
        (ctx.siteAt limits fuel name).Related Process.CutOf (ctx.siteAt limits' fuel name) := by
      refine ⟨rfl, rfl, fun inner input => ?_⟩
      change (ctx.enter limits fuel inner input).CutOf (ctx.enter limits' fuel inner input)
      unfold Context.enter Context.nested?
      by_cases hLess : ctx.depth < limits.maxDepth
      · rw [if_pos hLess, if_pos (Nat.lt_of_lt_of_le hLess hDepth)]
        exact ih _ _ _ _ _
      · rw [if_neg hLess]
        exact Process.cutOf_fail _ _
    rw [Workflow.walk_succ, Workflow.walk_succ]
    cases w.state? name with
    | none => exact Process.cutOf_fail _ _
    | some s =>
      dsimp only
      cases s.successor payload with
      | error e => exact Process.cutOf_fail _ _
      | ok next =>
        refine Process.CutOf.andThen (fun o => ?_)
          (State.transition_related Process.cutOf_congruence hSite hConcurrency s payload)
        cases next with
        | none =>
          dsimp only
          rw [Process.CutOf]
        | some next => exact ih ctx w next o.payload _

end Orchestration
