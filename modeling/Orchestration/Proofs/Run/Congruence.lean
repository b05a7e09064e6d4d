import Orchestration.Proofs.Run.Transitions

/-!
# Relations that transitions keep

Two places where the same state runs differ only in how workflows inside it are run. If
these are related, so are the transitions, for any relation of processes that calls and
forks keep (`Process.Congruence`).

* `Site.Related`: two such places.
* `State.transition_related`: the transitions of a state there.
-/

namespace Orchestration

/-- A relation of processes that calls and forks keep. What goes on after a failure only has to be
related where it fails as well, since transitions go on in no other way. -/
structure Process.Congruence (R : Process → Process → Prop) : Prop where
  value (payload : Json) : R (.value payload) (.value payload)
  fail (e : RunError) : R (.fail e) (.fail e)
  call {r : Request} {next next' : Except ActivityError Json → Process}
    (hOk : ∀ v, R (next (.ok v)) (next' (.ok v)))
    (hError : ∀ e, ∃ e', next (.error e) = .fail e' ∧ next' (.error e) = .fail e') :
    R (.call r next) (.call r next')
  fork {width : Width} {strands strands' : List Process}
    {next next' : Except RunError (List Outcome) → Process}
    (hStrands : List.Forall₂ R strands strands') (hOk : ∀ os, R (next (.ok os)) (next' (.ok os)))
    (hError : ∀ e, ∃ e', next (.error e) = .fail e' ∧ next' (.error e) = .fail e') :
    R (.fork width strands next) (.fork width strands' next')

/-- Where the same state runs, with related workflows inside it. -/
structure Site.Related (R : Process → Process → Prop) (site site' : Site) : Prop where
  name : site.name = site'.name
  requestId : site.requestId = site'.requestId
  enter : ∀ w input, R (site.enter w input) (site'.enter w input)

/-! ## Plans that fail -/

section Plans

variable {site site' : Site} {payload : Json}

/-- What the plan of a branch fails for does not hang on the place where it runs. -/
theorem Branch.plan_error_congr {b : Branch} {e : RunError} (h : b.plan site payload = .error e) :
    b.plan site' payload = .error e := by
  unfold Branch.plan at h ⊢
  split at h
  · cases h
  · split at h
    · exact h
    · rename_i m _ _ name _
      cases hInputs : m.inputs payload with
      | error e' =>
        rw [hInputs] at h
        exact h
      | ok inputs =>
        rw [hInputs] at h
        cases h
  · exact h
  · exact h

theorem branchPlans_error_congr {branches : List Branch} {e : RunError}
    (h : branchPlans site payload branches = .error e) :
    branchPlans site' payload branches = .error e := by
  induction branches with
  | nil => cases h
  | cons b rest ih =>
    rw [branchPlans] at h ⊢
    rcases bind_eq_error_iff.mp h with hPlan | ⟨plan, hPlan, hRest⟩
    · rw [Branch.plan_error_congr hPlan]
      rfl
    · obtain ⟨plan', hPlan', -⟩ : ∃ plan', b.plan site' payload = .ok plan' ∧
          plan.Pairs (fun _ _ => True) plan' :=
        Branch.plan_pairs (fun _ _ => trivial) (fun _ _ => trivial) hPlan
      rcases bind_eq_error_iff.mp hRest with hPlans | ⟨_, _, ⟨⟩⟩
      rw [hPlan', ih hPlans]
      rfl

end Plans

/-! ## Transitions -/

section Transition

variable {R : Process → Process → Prop} {site site' : Site} {limits limits' : Limits}

theorem Site.Related.fail (h : site.Related R site') (payload : Json) (cause : RunError) :
    site.fail payload cause = site'.fail payload cause := by
  rw [Site.fail, Site.fail, h.name]

theorem Site.Related.request (h : site.Related R site') (activity : String) (payload : Json) :
    site.request activity payload = site'.request activity payload := by
  rw [Site.request, Site.request, h.requestId]

variable (hR : Process.Congruence R)
include hR

theorem Site.Related.dispatch (h : site.Related R site') (activity : String) (payload : Json) :
    R (site.dispatch activity payload) (site'.dispatch activity payload) := by
  rw [Site.dispatch, Site.dispatch, h.request, Process.single]
  exact hR.call (fun v => hR.value v) fun e => ⟨_, rfl, rfl⟩

theorem Site.Related.repeatCalls (h : site.Related R site') (activity : String) (n : Nat)
    (payload : Json) :
    R (site.repeatCalls activity n payload) (site'.repeatCalls activity n payload) := by
  induction n generalizing payload with
  | zero => exact hR.value payload
  | succ n ih =>
    rw [Site.repeatCalls, Site.repeatCalls, h.request]
    exact hR.call ih fun e => ⟨_, rfl, (h.fail payload (.activity e)).symm⟩

theorem Site.Related.loopCalls (h : site.Related R site') (activity : String) (payload : Json)
    (elements : List Json) :
    R (site.loopCalls activity payload elements) (site'.loopCalls activity payload elements) := by
  induction elements with
  | nil => exact hR.value payload
  | cons element rest ih =>
    rw [Site.loopCalls, Site.loopCalls, h.request]
    exact hR.call (fun _ => ih) fun e => ⟨_, rfl, (h.fail payload (.activity e)).symm⟩

theorem Site.Related.map (h : site.Related R site')
    (hConcurrency : limits.mapConcurrency = limits'.mapConcurrency) (m : MapState)
    (payload : Json) :
    R (m.transition site limits payload) (m.transition site' limits' payload) := by
  rw [MapState.transition, MapState.transition]
  cases m.inputs payload with
  | error e =>
    dsimp only
    rw [h.fail]
    exact hR.fail _
  | ok inputs =>
    have hBody : ∀ input, R (m.body.process site input) (m.body.process site' input) := by
      intro input
      cases m.body with
      | activity name => exact h.dispatch hR name input
      | workflow w => exact h.enter w input
    dsimp only
    rw [MapState.window, MapState.window, hConcurrency]
    refine hR.fork ?_ (fun os => ?_) fun e => ⟨_, rfl, (h.fail payload e).symm⟩
    · rw [List.forall₂_map_left_iff, List.forall₂_map_right_iff]
      exact List.forall₂_same.mpr fun input _ => hBody input
    · dsimp only
      split
      · exact hR.value _
      · rw [h.fail]
        exact hR.fail _

theorem Site.Related.parallel (h : site.Related R site') (p : ParallelState) (payload : Json) :
    R (p.transition site payload) (p.transition site' payload) := by
  have hPairs {plans : List BranchPlan} (hPlans : branchPlans site payload p.branches =
      .ok plans) :=
    branchPlans_pairs (h.dispatch hR) h.enter hPlans
  rw [ParallelState.transition, ParallelState.transition]
  cases hPlans : branchPlans site payload p.branches with
  | error e =>
    rw [branchPlans_error_congr hPlans]
    dsimp only
    rw [h.fail]
    exact hR.fail _
  | ok plans =>
    obtain ⟨plans', hPlans', hPairs⟩ := hPairs hPlans
    have hStrands := flatMap_strands_pairs hPairs
    rw [hPlans']
    dsimp only
    rw [hStrands.length_eq]
    refine hR.fork hStrands (fun os => ?_) fun e => ⟨_, rfl, (h.fail payload e).symm⟩
    dsimp only
    rw [mergeBranches_of_pairs hPairs]
    exact hR.value _

theorem State.transition_related (h : site.Related R site')
    (hConcurrency : limits.mapConcurrency = limits'.mapConcurrency) (s : State) (payload : Json) :
    R (s.transition site limits payload) (s.transition site' limits' payload) := by
  cases s with
  | task t => exact h.repeatCalls hR t.activity 1 payload
  | «switch» s => exact hR.value payload
  | map m => exact h.map hR hConcurrency m payload
  | «repeat» r => exact h.repeatCalls hR r.activity r.count payload
  | loop l =>
    rw [State.transition, State.transition]
    split
    · rw [h.fail]
      exact hR.fail _
    · exact h.loopCalls hR l.activity payload _
  | parallel p => exact h.parallel hR p payload

end Transition

end Orchestration
