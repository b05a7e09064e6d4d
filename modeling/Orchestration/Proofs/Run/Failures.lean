import Orchestration.Proofs.Run.Parts
import Orchestration.Proofs.Run.Postcondition

/-!
# How states fail

A state fails for a cause of its own, or because a workflow inside it has failed.

* `RunError.OfPayload`: the payload does not have what the state reads. All that is read before the
  first call of a state fails in this way only.
* `RunError.IsFault`: there is something wrong with the payload or with the state itself.
* `RunError.Own`: no workflow inside the state was the cause.
* `State.meets_failsBy`: what holds of the own causes of a state and of the failures of the
  workflows that it runs one level deeper, carries over to the failures of the state.
-/

namespace Orchestration

/-! ## Causes -/

/-- The payload does not have what is read from it, or not so that it can be used. -/
inductive RunError.OfPayload : RunError → Prop
  | path (e : PathError) : OfPayload (.path e)
  | notAnArray (path : String) : OfPayload (.notAnArray path)
  | incomparable (left : Json) (op : Comparison) (right : Json) :
    OfPayload (.incomparable left op right)

theorem arrayAt_ofPayload {payload : Json} {path : String} {e : RunError}
    (h : arrayAt payload path = .error e) : e.OfPayload := by
  unfold arrayAt at h
  split at h
  · cases h
    exact .path _
  · split at h
    · cases h
    · cases h
      exact .notAnArray _

theorem sharedParams_ofPayload {payload : Json} {paths : List String} {e : RunError}
    (h : sharedParams payload paths = .error e) : e.OfPayload := by
  induction paths with
  | nil => cases h
  | cons p rest ih =>
    rw [sharedParams] at h
    split at h
    · cases h
      exact .path _
    · cases hRest : sharedParams payload rest with
      | error e' =>
        rw [hRest] at h
        cases h
        exact ih hRest
      | ok shared =>
        rw [hRest] at h
        cases h

theorem MapState.inputs_ofPayload {m : MapState} {payload : Json} {e : RunError}
    (h : m.inputs payload = .error e) : e.OfPayload := by
  unfold MapState.inputs at h
  cases hArray : arrayAt payload m.array with
  | error e' =>
    rw [hArray] at h
    cases h
    exact arrayAt_ofPayload hArray
  | ok elements =>
    rw [hArray] at h
    simp only [bind, Except.bind] at h
    split at h
    · cases h
    · cases hShared : sharedParams payload m.paramPaths with
      | error e' =>
        rw [hShared] at h
        cases h
        exact sharedParams_ofPayload hShared
      | ok shared =>
        rw [hShared] at h
        cases h

theorem chooseCase_ofPayload {payload : Json} {default : Option String} {cases : List Case}
    {e : RunError} (h : chooseCase payload default cases = .error e) : e.OfPayload := by
  induction cases with
  | nil => cases h
  | cons c rest ih =>
    rw [chooseCase] at h
    split at h
    · cases h
      exact .path _
    · split at h
      · cases h
        exact .incomparable _ _ _
      · cases h
      · exact ih h

theorem State.successor_ofPayload {s : State} {payload : Json} {e : RunError}
    (h : s.successor payload = .error e) : e.OfPayload := by
  cases s with
  | switch sw => exact chooseCase_ofPayload h
  | _ => cases h

/-- The payload does not have what the state reads, or the state is not one that can be run. That is
found before anything is called. -/
inductive RunError.IsFault : RunError → Prop
  | ofPayload {e : RunError} (h : e.OfPayload) : e.IsFault
  | unknownState (name : String) : IsFault (.unknownState name)
  | unsupportedBranch (branch : String) (kind : Kind) : IsFault (.unsupportedBranch branch kind)

theorem Branch.plan_isFault {site : Site} {b : Branch} {payload : Json} {e : RunError}
    (h : b.plan site payload = .error e) : e.IsFault := by
  unfold Branch.plan at h
  split at h
  · cases h
  · split at h
    · cases h
      exact .unsupportedBranch _ _
    · rename_i m _ _ name _
      cases hInputs : m.inputs payload with
      | error e' =>
        rw [hInputs] at h
        cases h
        exact .ofPayload (MapState.inputs_ofPayload hInputs)
      | ok inputs =>
        rw [hInputs] at h
        cases h
  · cases h
    exact .unsupportedBranch _ _
  · cases h
    exact .unknownState _

theorem branchPlans_isFault {site : Site} {payload : Json} {branches : List Branch} {e : RunError}
    (h : branchPlans site payload branches = .error e) : e.IsFault := by
  obtain ⟨b, -, hPlan⟩ := branchPlans_eq_error h
  exact Branch.plan_isFault hPlan

/-- The cause does not lie in a workflow inside the state. -/
inductive RunError.Own : RunError → Prop
  | ofPayload {e : RunError} (h : e.OfPayload) : e.Own
  | activity (e : ActivityError) : Own (.activity e)
  | unknownState (name : String) : Own (.unknownState name)
  | unsupportedBranch (branch : String) (kind : Kind) : Own (.unsupportedBranch branch kind)

theorem RunError.IsFault.own {e : RunError} (h : e.IsFault) : e.Own := by
  cases h with
  | ofPayload h => exact .ofPayload h
  | unknownState name => exact .unknownState name
  | unsupportedBranch branch kind => exact .unsupportedBranch branch kind

/-- Failures have this property. -/
def FailsBy (F : RunError → Prop) : Post := fun r => ∀ e, r = .error e → F e

/-! ## Transitions -/

section Transition

variable {A : Answering} {F G : RunError → Prop} {site : Site} {limits : Limits}

theorem Process.meets_failsBy_value (payload : Json) :
    (Process.value payload).Meets A (FailsBy F) := by
  rw [Process.value, Process.Meets]
  rintro e ⟨⟩

theorem Process.meets_failsBy_fail {e : RunError} (h : F e) :
    (Process.fail e).Meets A (FailsBy F) := by
  rw [Process.fail, Process.Meets]
  rintro e' ⟨⟩
  exact h

/-- What is known of the causes for which a state may fail (`F`), and of the failures at the state
that they lead to (`G`). -/
structure Site.Turns (site : Site) (F G : RunError → Prop) : Prop where
  own : ∀ e, e.Own → F e
  wrap : ∀ payload cause, F cause → G (.failedAt site.name payload cause)

/-- The workflows that the state runs one level deeper fail in this way. -/
def Site.InnerFails (site : Site) (A : Answering) (F : RunError → Prop) (s : State) : Prop :=
  ∀ w, s.Nests w → ∀ input, (site.enter w input).Meets A (FailsBy F)

namespace Site.Turns

theorem fail (h : site.Turns F G) {cause : RunError} (hCause : F cause) (payload : Json) :
    (site.fail payload cause).Meets A (FailsBy G) :=
  Process.meets_failsBy_fail (h.wrap payload cause hCause)

theorem dispatch (h : site.Turns F G) (activity : String) (payload : Json) :
    (site.dispatch activity payload).Meets A (FailsBy F) := by
  rw [Site.dispatch, Process.single, Process.Meets]
  rintro (e | v) -
  · exact Process.meets_failsBy_fail (h.own _ (.activity e))
  · exact Process.meets_failsBy_value v

theorem repeatCalls (h : site.Turns F G) (activity : String) (n : Nat) (payload : Json) :
    (site.repeatCalls activity n payload).Meets A (FailsBy G) := by
  induction n generalizing payload with
  | zero => exact Process.meets_failsBy_value payload
  | succ n ih =>
    rw [Site.repeatCalls, Process.Meets]
    rintro (e | v) -
    · exact h.fail (h.own _ (.activity e)) payload
    · exact ih v

theorem loopCalls (h : site.Turns F G) (activity : String) (payload : Json) (elements : List Json) :
    (site.loopCalls activity payload elements).Meets A (FailsBy G) := by
  induction elements with
  | nil => exact Process.meets_failsBy_value payload
  | cons element rest ih =>
    rw [Site.loopCalls, Process.Meets]
    rintro (e | v) -
    · exact h.fail (h.own _ (.activity e)) payload
    · exact ih

theorem part (h : site.Turns F G) {s : State} (hInner : site.InnerFails A F s) {p : Process}
    (hPart : s.Part site p) : p.Meets A (FailsBy F) := by
  cases hPart with
  | call activity input => exact h.dispatch activity input
  | enter hNests input => exact hInner _ hNests input

/-- Strands side by side, of which one fails for a cause of the state or of a workflow inside it. -/
theorem fork (h : site.Turns F G) {s : State} (hInner : site.InnerFails A F s) (payload : Json)
    {width : Width} {strands : List Process} {next : Except RunError (List Outcome) → Process}
    (hParts : ∀ p ∈ strands, s.Part site p) (hError : ∀ e, next (.error e) = site.fail payload e)
    (hOk : ∀ os, (next (.ok os)).Meets A (FailsBy G)) :
    (Process.fork width strands next).Meets A (FailsBy G) := by
  refine Process.meets_fork_of_forall (P :=
    FailsBy F) (fun p hp => h.part hInner (hParts p hp)) ?_ ?_
  · intro e he
    rw [hError]
    exact h.fail (he e rfl) payload
  · exact fun os _ => hOk os

theorem map (h : site.Turns F G) {m : MapState} (hInner : site.InnerFails A F (.map m))
    (payload : Json) :
    (m.transition site limits payload).Meets A (FailsBy G) := by
  rw [MapState.transition]
  cases hInputs : m.inputs payload with
  | error e => exact h.fail (h.own e (.ofPayload (MapState.inputs_ofPayload hInputs))) payload
  | ok inputs =>
    refine h.fork hInner payload ?_ (fun e => rfl) fun os => ?_
    · intro p hp
      obtain ⟨input, -, rfl⟩ := List.mem_map.mp hp
      exact m.part_process input
    · dsimp only
      split
      · exact Process.meets_failsBy_value _
      · exact h.fail (h.own _ (.ofPayload (.path _))) payload

theorem parallel (h : site.Turns F G) {p : ParallelState}
    (hInner : site.InnerFails A F (.parallel p)) (payload : Json) :
    (p.transition site payload).Meets A (FailsBy G) := by
  rw [ParallelState.transition]
  cases hPlans : branchPlans site payload p.branches with
  | error e => exact h.fail (h.own e (branchPlans_isFault hPlans).own) payload
  | ok plans =>
    exact h.fork hInner payload (ParallelState.part_of_branchPlans hPlans) (fun e => rfl)
      fun os => Process.meets_failsBy_value _

end Site.Turns

/-- A state fails as its own causes and the workflows that it runs one level deeper make it fail. -/
theorem State.meets_failsBy (h : site.Turns F G) {s : State} (hInner : site.InnerFails A F s)
    (payload : Json) : (s.transition site limits payload).Meets A (FailsBy G) := by
  cases s with
  | task t => exact h.repeatCalls _ _ _
  | switch sw => exact Process.meets_failsBy_value _
  | map m => exact h.map hInner payload
  | «repeat» r => exact h.repeatCalls _ _ _
  | loop l =>
    rw [State.transition]
    split
    · rename_i hArray
      exact h.fail (h.own _ (.ofPayload (arrayAt_ofPayload hArray))) payload
    · exact h.loopCalls _ _ _
  | parallel p => exact h.parallel hInner payload

end Transition

end Orchestration
