import Orchestration.Proofs.Run.Completion

/-!
# Scheduling

Two settings of a run differ in how many elements of a map may be under way and in how long calls
take. If a run ends well in one of them, it ends alike in the other, with the same calls.

* `Workflow.withoutLimits` leaves out what workflows say about concurrency.
* `Workflow.eval_walk_of_alike`: evaluation depends on nothing else than what is left, and more
  fuel does not change it.
* `Workflow.run_of_alike`: the comparison of two runs.
-/

namespace Orchestration

/-! ## Workflows up to their limits -/

mutual

/-- The workflow without limits on how many elements of a map may be under way. -/
def Workflow.withoutLimits : Workflow → Workflow
  | ⟨root, states⟩ => ⟨root, statesWithoutLimits states⟩

/-- `State.withoutLimits` for each state of a list. -/
def statesWithoutLimits : List (String × State) → List (String × State)
  | [] => []
  | (name, s) :: rest => (name, s.withoutLimits) :: statesWithoutLimits rest

/-- The state without such limits. -/
def State.withoutLimits : State → State
  | .task t => .task t
  | .switch s => .switch s
  | .map m => .map m.withoutLimits
  | .repeat r => .repeat r
  | .loop l => .loop l
  | .parallel p => .parallel p.withoutLimits

/-- The map without such limits. -/
def MapState.withoutLimits : MapState → MapState
  | ⟨body, array, commonParams, _, next⟩ => ⟨body.withoutLimits, array, commonParams, none, next⟩

/-- The body without such limits. -/
def MapBody.withoutLimits : MapBody → MapBody
  | .activity name => .activity name
  | .workflow w => .workflow w.withoutLimits

/-- The parallel state without such limits. -/
def ParallelState.withoutLimits : ParallelState → ParallelState
  | ⟨branches, next⟩ => ⟨branchesWithoutLimits branches, next⟩

/-- `Branch.withoutLimits` for each branch of a list. -/
def branchesWithoutLimits : List Branch → List Branch
  | [] => []
  | b :: rest => b.withoutLimits :: branchesWithoutLimits rest

/-- The branch without such limits. -/
def Branch.withoutLimits : Branch → Branch
  | ⟨name, w⟩ => ⟨name, w.withoutLimits⟩

end

@[simp] theorem Workflow.root_withoutLimits (w : Workflow) : w.withoutLimits.root = w.root := by
  cases w
  rfl

@[simp] theorem Workflow.states_withoutLimits (w : Workflow) :
    w.withoutLimits.states = statesWithoutLimits w.states := by
  cases w
  rfl

@[simp] theorem Branch.name_withoutLimits (b : Branch) : b.withoutLimits.name = b.name := by
  cases b
  rfl

@[simp] theorem Branch.workflow_withoutLimits (b : Branch) :
    b.withoutLimits.workflow = b.workflow.withoutLimits := by
  cases b
  rfl

@[simp] theorem MapState.array_withoutLimits (m : MapState) : m.withoutLimits.array = m.array := by
  cases m
  rfl

@[simp] theorem MapState.body_withoutLimits (m : MapState) :
    m.withoutLimits.body = m.body.withoutLimits := by
  cases m
  rfl

@[simp] theorem ParallelState.branches_withoutLimits (p : ParallelState) :
    p.withoutLimits.branches = branchesWithoutLimits p.branches := by
  cases p
  rfl

theorem get?_statesWithoutLimits (name : String) (states : List (String × State)) :
    Entries.get? name (statesWithoutLimits states) =
      (Entries.get? name states).map State.withoutLimits := by
  induction states with
  | nil => rfl
  | cons entry rest ih =>
    obtain ⟨k, s⟩ := entry
    rw [statesWithoutLimits, Entries.get?, Entries.get?]
    split
    · rfl
    · exact ih

theorem Workflow.state?_withoutLimits (w : Workflow) (name : String) :
    w.withoutLimits.state? name = (w.state? name).map State.withoutLimits := by
  rw [Workflow.state?, Workflow.states_withoutLimits]
  exact get?_statesWithoutLimits name w.states

theorem insert_statesWithoutLimits (name : String) (s : State) (states : List (String × State)) :
    statesWithoutLimits (Entries.insert name s states) =
      Entries.insert name s.withoutLimits (statesWithoutLimits states) := by
  induction states with
  | nil => rfl
  | cons entry rest ih =>
    obtain ⟨k, s'⟩ := entry
    rw [Entries.insert, statesWithoutLimits, Entries.insert]
    split
    · rw [statesWithoutLimits]
    · rw [statesWithoutLimits, ih]

theorem State.successor_withoutLimits (s : State) (payload : Json) :
    s.withoutLimits.successor payload = s.successor payload := by
  cases s with
  | map m =>
    cases m
    rfl
  | parallel p =>
    cases p
    rfl
  | _ => rfl

theorem MapState.inputs_withoutLimits (m : MapState) (payload : Json) :
    m.withoutLimits.inputs payload = m.inputs payload := by
  cases m
  rfl

theorem Branch.rootState?_withoutLimits (b : Branch) :
    b.withoutLimits.workflow.rootState? = b.workflow.rootState?.map State.withoutLimits := by
  rw [Branch.workflow_withoutLimits, Workflow.rootState?, Workflow.root_withoutLimits]
  exact Workflow.state?_withoutLimits b.workflow b.workflow.root

theorem MapBody.activity?_withoutLimits (body : MapBody) :
    body.withoutLimits.activity? = body.activity? := by
  cases body <;> rfl

theorem Branch.key_withoutLimits (b : Branch) : b.withoutLimits.key = b.key := by
  unfold Branch.key
  rw [Branch.rootState?_withoutLimits]
  rcases b.workflow.rootState? with _ | (t | s | m | r | l | p) <;>
    simp [State.withoutLimits, MapBody.activity?_withoutLimits]

theorem Branch.elementTask?_withoutLimits (b : Branch) :
    b.withoutLimits.elementTask? = b.elementTask? := by
  unfold Branch.elementTask?
  rw [Branch.rootState?_withoutLimits]
  rcases b.workflow.rootState? with _ | (t | s | m | r | l | p)
  case some.map =>
    obtain ⟨body, array, commonParams, maxConcurrency, next⟩ := m
    cases next <;> cases body <;> rfl
  all_goals rfl

theorem Branch.elementWorkflow_withoutLimits (b : Branch) :
    b.withoutLimits.elementWorkflow = b.elementWorkflow.map Workflow.withoutLimits := by
  unfold Branch.elementWorkflow
  rw [Branch.elementTask?_withoutLimits]
  cases b.elementTask? with
  | none => rfl
  | some t =>
    simp [Workflow.withoutLimits, insert_statesWithoutLimits, State.withoutLimits]

/-! ## Evaluation up to limits -/

variable {answers : Answers}

/-- The second process evaluates to what the first evaluates to. -/
def Process.Refines (answers : Answers) (p p' : Process) : Prop :=
  ∀ r, p.eval answers = some r → p'.eval answers = some r

theorem Process.Refines.refl (p : Process) : p.Refines answers p := fun _ h => h

theorem Process.Refines.of_fail (e : RunError) (p : Process) :
    (Process.fail e).Refines answers p := by
  rintro r ⟨⟩

theorem evalAll_refines {ps ps' : List Process}
    (h : List.Forall₂ (Process.Refines answers) ps ps') :
    ∀ r, evalAll answers ps = some r → evalAll answers ps' = some r := by
  induction h with
  | nil => exact fun r hr => hr
  | cons hHead hRest ih =>
    rintro ⟨os, cs⟩ hr
    obtain ⟨o, os', ds, es, ho, hos, rfl, rfl⟩ := evalAll_cons_eq_some.mp hr
    exact evalAll_cons_eq_some.mpr ⟨o, os', ds, es, hHead _ ho, ih _ hos, rfl, rfl⟩

theorem Process.Refines.fork {width width' : Width} {ps ps' : List Process}
    {next next' : Except RunError (List Outcome) → Process}
    (hAll : List.Forall₂ (Process.Refines answers) ps ps')
    (hNext : ∀ os, (next (.ok os)).Refines answers (next' (.ok os))) :
    (Process.fork width ps next).Refines answers (Process.fork width' ps' next') := by
  rintro ⟨o, cs⟩ h
  obtain ⟨os, ds, es, hStrands, ho, rfl⟩ := Process.eval_fork_eq_some.mp h
  exact Process.eval_fork_eq_some.mpr ⟨os, ds, es, evalAll_refines hAll _ hStrands,
    hNext os _ ho, rfl⟩

/-- Workflows inside are run alike, up to their limits. -/
def Site.Refines (answers : Answers) (site site' : Site) : Prop :=
  ∀ (w w' : Workflow) (input : Json), w.withoutLimits = w'.withoutLimits →
    (site.enter w input).Refines answers (site'.enter w' input)

section Transition

variable {site site' : Site} {limits limits' : Limits}

theorem Site.dispatch_refines (activity : String) (payload : Json) :
    (site.dispatch activity payload).Refines answers (site'.dispatch activity payload) := by
  rintro ⟨o, cs⟩ h
  rw [Site.eval_dispatch_eq_some] at h ⊢
  exact h

theorem Site.repeatCalls_refines (activity : String) (n : Nat) (payload : Json) :
    (site.repeatCalls activity n payload).Refines answers
      (site'.repeatCalls activity n payload) := by
  induction n generalizing payload with
  | zero => exact Process.Refines.refl _
  | succ n ih =>
    rintro ⟨o, cs⟩ h
    obtain ⟨v, ds, hv, hRest, rfl⟩ := Site.eval_repeatCalls_succ.mp h
    exact Site.eval_repeatCalls_succ.mpr ⟨v, ds, hv, ih v _ hRest, rfl⟩

theorem Site.loopCalls_refines (activity : String) (payload : Json) (elements : List Json) :
    (site.loopCalls activity payload elements).Refines answers
      (site'.loopCalls activity payload elements) := by
  induction elements with
  | nil => exact Process.Refines.refl _
  | cons element rest ih =>
    rintro ⟨o, cs⟩ h
    obtain ⟨v, ds, hv, hRest, rfl⟩ := Site.eval_loopCalls_cons.mp h
    exact Site.eval_loopCalls_cons.mpr ⟨v, ds, hv, ih _ hRest, rfl⟩

theorem MapBody.process_refines (hSite : site.Refines answers site') {body body' : MapBody}
    (h : body.withoutLimits = body'.withoutLimits) (input : Json) :
    (body.process site input).Refines answers (body'.process site' input) := by
  cases body <;> cases body' <;> simp only [MapBody.withoutLimits, MapBody.activity.injEq,
    MapBody.workflow.injEq, reduceCtorEq] at h
  · subst h
    exact Site.dispatch_refines _ _
  · exact hSite _ _ _ h

/-- Processes for the elements of one list refine each other one by one. -/
theorem forall₂_map_refines {f f' : Json → Process} (h : ∀ x, (f x).Refines answers (f' x))
    (inputs : List Json) :
    List.Forall₂ (Process.Refines answers) (inputs.map f) (inputs.map f') := by
  rw [List.forall₂_map_left_iff, List.forall₂_map_right_iff]
  exact List.forall₂_same.mpr fun x _ => h x

theorem MapState.transition_refines (hSite : site.Refines answers site') {m m' : MapState}
    (h : m.withoutLimits = m'.withoutLimits) (payload : Json) :
    (m.transition site limits payload).Refines answers (m'.transition site' limits' payload) := by
  have hInputs : m.inputs payload = m'.inputs payload := by
    rw [← MapState.inputs_withoutLimits m, h, MapState.inputs_withoutLimits]
  have hArray : m.array = m'.array := by
    rw [← MapState.array_withoutLimits m, h, MapState.array_withoutLimits]
  have hBody : m.body.withoutLimits = m'.body.withoutLimits := by
    rw [← MapState.body_withoutLimits m, h, MapState.body_withoutLimits]
  rw [MapState.transition, MapState.transition, ← hInputs, ← hArray]
  cases m.inputs payload with
  | error e => exact Process.Refines.of_fail _ _
  | ok inputs =>
    refine Process.Refines.fork
      (forall₂_map_refines (fun x => MapBody.process_refines hSite hBody x) inputs) fun os => ?_
    dsimp only
    split
    · exact Process.Refines.refl _
    · exact Process.Refines.of_fail _ _

/-- Two plans with the same result for the same answers. -/
def BranchPlan.Refines (answers : Answers) (plan plan' : BranchPlan) : Prop :=
  plan.key = plan'.key ∧ plan.isMap = plan'.isMap ∧
    List.Forall₂ (Process.Refines answers) plan.strands plan'.strands

theorem Workflow.state?_of_alike {w w' : Workflow} (h : w.withoutLimits = w'.withoutLimits)
    (name : String) :
    (w.state? name).map State.withoutLimits = (w'.state? name).map State.withoutLimits := by
  rw [← Workflow.state?_withoutLimits, h, Workflow.state?_withoutLimits]

theorem Workflow.root_of_alike {w w' : Workflow} (h : w.withoutLimits = w'.withoutLimits) :
    w.root = w'.root := by
  rw [← Workflow.root_withoutLimits w, h, Workflow.root_withoutLimits]

theorem Branch.rootState?_of_alike {b b' : Branch} (h : b.withoutLimits = b'.withoutLimits) :
    b.workflow.rootState?.map State.withoutLimits =
      b'.workflow.rootState?.map State.withoutLimits := by
  rw [← Branch.rootState?_withoutLimits b, h, Branch.rootState?_withoutLimits]

theorem Branch.rootTask_of_alike {b b' : Branch} (h : b.withoutLimits = b'.withoutLimits)
    {t : TaskState} (hTask : b.workflow.rootState? = some (.task t)) :
    b'.workflow.rootState? = some (.task t) := by
  have hRoot := Branch.rootState?_of_alike h
  rw [hTask] at hRoot
  obtain ⟨s', hs', hState⟩ := Option.map_eq_some_iff.mp hRoot.symm
  cases s' <;> simp only [State.withoutLimits, State.task.injEq, reduceCtorEq] at hState
  rw [hs', hState]

/-- Maps at the roots of such branches have the same inputs, and both run the
same activity or none. -/
theorem Branch.rootMap_of_alike {b b' : Branch} (h : b.withoutLimits = b'.withoutLimits)
    {m : MapState} (hMap : b.workflow.rootState? = some (.map m)) :
    ∃ m', b'.workflow.rootState? = some (.map m') ∧
      (∀ payload, m'.inputs payload = m.inputs payload) ∧
      m'.body.withoutLimits = m.body.withoutLimits := by
  have hRoot := Branch.rootState?_of_alike h
  rw [hMap] at hRoot
  obtain ⟨s', hs', hState⟩ := Option.map_eq_some_iff.mp hRoot.symm
  cases s' <;> simp only [State.withoutLimits, State.map.injEq, reduceCtorEq] at hState
  rename_i m'
  refine ⟨m', hs', fun payload => ?_, ?_⟩
  · rw [← MapState.inputs_withoutLimits m, ← hState, MapState.inputs_withoutLimits]
  · rw [← MapState.body_withoutLimits m, ← hState, MapState.body_withoutLimits]

theorem MapBody.activity_of_alike {body : MapBody} {name : String}
    (h : body.withoutLimits = (MapBody.activity name).withoutLimits) : body = .activity name := by
  cases body with
  | activity name' => simpa [MapBody.withoutLimits] using h
  | workflow w => simp [MapBody.withoutLimits] at h

/-- Branches that are the same up to their limits have plans that go together. -/
theorem Branch.plan_refines (hSite : site.Refines answers site') {b b' : Branch}
    (h : b.withoutLimits = b'.withoutLimits) {payload : Json} {plan : BranchPlan}
    (hPlan : b.plan site payload = .ok plan) :
    ∃ plan', b'.plan site' payload = .ok plan' ∧ plan.Refines answers plan' := by
  have hKey : b.key = b'.key := by
    rw [← Branch.key_withoutLimits b, h, Branch.key_withoutLimits]
  have hElement : b.elementWorkflow.map Workflow.withoutLimits =
      b'.elementWorkflow.map Workflow.withoutLimits := by
    rw [← Branch.elementWorkflow_withoutLimits b, h, Branch.elementWorkflow_withoutLimits]
  have hWorkflow : b.workflow.withoutLimits = b'.workflow.withoutLimits := by
    rw [← Branch.workflow_withoutLimits b, h, Branch.workflow_withoutLimits]
  rcases Branch.plan_eq_ok_iff.mp hPlan with ⟨t, hTask, rfl⟩
    | ⟨m, name, inputs, hMap, hBody, hInputs, rfl⟩
  · have hTask' := Branch.rootTask_of_alike h hTask
    refine ⟨_, Branch.plan_eq_ok_iff.mpr (.inl ⟨t, hTask', rfl⟩), hKey, rfl, .cons ?_ .nil⟩
    unfold Branch.taskStrand
    cases t.next with
    | none => exact Site.dispatch_refines _ _
    | some next => exact hSite _ _ payload hWorkflow
  · obtain ⟨m', hMap', hSame, hBody'⟩ := Branch.rootMap_of_alike h hMap
    rw [hBody] at hBody'
    have hCalls := MapBody.activity_of_alike hBody'
    have hInputs' := (hSame payload).trans hInputs
    refine ⟨_, Branch.plan_eq_ok_iff.mpr (.inr ⟨m', name, inputs, hMap', hCalls, hInputs', rfl⟩),
      hKey, rfl, forall₂_map_refines (fun input => ?_) inputs⟩
    -- Each element goes through the branch's element workflow, if both branches have one.
    unfold Branch.elementStrand
    cases hw : b.elementWorkflow with
    | none =>
      rw [hw] at hElement
      rw [Option.map_eq_none_iff.mp hElement.symm]
      exact Site.dispatch_refines _ _
    | some w =>
      rw [hw] at hElement
      obtain ⟨w', hw', hAlike⟩ := Option.map_eq_some_iff.mp hElement.symm
      rw [hw']
      exact hSite w w' input hAlike.symm

theorem branchPlans_refines (hSite : site.Refines answers site') {branches branches' : List Branch}
    (h : branchesWithoutLimits branches = branchesWithoutLimits branches') {payload : Json}
    {plans : List BranchPlan} (hPlans : branchPlans site payload branches = .ok plans) :
    ∃ plans', branchPlans site' payload branches' = .ok plans' ∧
      List.Forall₂ (BranchPlan.Refines answers) plans plans' := by
  induction branches generalizing branches' plans with
  | nil =>
    cases branches' with
    | nil =>
      cases hPlans
      exact ⟨[], rfl, List.Forall₂.nil⟩
    | cons b' rest' => simp [branchesWithoutLimits] at h
  | cons b rest ih =>
    cases branches' with
    | nil => simp [branchesWithoutLimits] at h
    | cons b' rest' =>
      simp only [branchesWithoutLimits, List.cons.injEq] at h
      obtain ⟨plan, plans', hPlan, hRest, rfl⟩ := branchPlans_cons_eq_ok.mp hPlans
      obtain ⟨plan', hPlan', hSame⟩ := Branch.plan_refines hSite h.1 hPlan
      obtain ⟨plans'', hRest', hAll⟩ := ih h.2 hRest
      exact ⟨plan' :: plans'', branchPlans_cons_eq_ok.mpr ⟨plan', plans'', hPlan', hRest', rfl⟩,
        List.Forall₂.cons hSame hAll⟩

theorem ParallelState.transition_refines (hSite : site.Refines answers site') {p p' : ParallelState}
    (h : p.withoutLimits = p'.withoutLimits) (payload : Json) :
    (p.transition site payload).Refines answers (p'.transition site' payload) := by
  have hBranches : branchesWithoutLimits p.branches = branchesWithoutLimits p'.branches := by
    rw [← ParallelState.branches_withoutLimits p, h, ParallelState.branches_withoutLimits]
  rw [ParallelState.transition, ParallelState.transition]
  cases hPlans : branchPlans site payload p.branches with
  | error e => exact Process.Refines.of_fail _ _
  | ok plans =>
    obtain ⟨plans', hPlans', hAll⟩ := branchPlans_refines hSite hBranches hPlans
    rw [hPlans']
    refine Process.Refines.fork (flatMap_strands_pairs hAll) fun os => ?_
    dsimp only
    rw [mergeBranches_of_pairs hAll]
    exact Process.Refines.refl _

/-- States that are the same up to their limits have transitions that evaluate alike. -/
theorem State.transition_refines (hSite : site.Refines answers site') {s s' : State}
    (h : s.withoutLimits = s'.withoutLimits) (payload : Json) :
    (s.transition site limits payload).Refines answers (s'.transition site' limits' payload) := by
  cases s <;> cases s' <;> simp only [State.withoutLimits, State.task.injEq, State.switch.injEq,
    State.map.injEq, State.repeat.injEq, State.loop.injEq, State.parallel.injEq, reduceCtorEq] at h
  case task.task t t' =>
    subst h
    exact Site.repeatCalls_refines _ _ _
  case switch.switch s s' => exact Process.Refines.refl _
  case map.map m m' => exact MapState.transition_refines hSite h payload
  case repeat.repeat r r' =>
    subst h
    exact Site.repeatCalls_refines _ _ _
  case loop.loop l l' =>
    subst h
    simp only [State.transition]
    split
    · exact Process.Refines.of_fail _ _
    · exact Site.loopCalls_refines _ _ _
  case parallel.parallel p p' => exact ParallelState.transition_refines hSite h payload

/-! ## Walks and runs -/

/-- Places in runs that go together let workflows in that go together. -/
theorem Context.siteAt_refines {ctx ctx' : Context} {fuel fuel' : Nat} (name : String)
    (hRoom : limits.maxDepth + ctx'.depth ≤ limits'.maxDepth + ctx.depth)
    (hWalk : ∀ {ctx ctx' : Context} {w w' : Workflow} (name : String) (payload : Json)
      (visited : List String), limits.maxDepth + ctx'.depth ≤ limits'.maxDepth + ctx.depth →
      w.withoutLimits = w'.withoutLimits →
      (w.walk limits fuel ctx name payload visited).Refines answers
        (w'.walk limits' fuel' ctx' name payload visited)) :
    (ctx.siteAt limits fuel name).Refines answers (ctx'.siteAt limits' fuel' name) := by
  intro inner inner' input hInner
  change (ctx.enter limits fuel inner input).Refines answers (ctx'.enter limits' fuel' inner' input)
  unfold Context.enter Context.nested?
  rw [Workflow.root_of_alike hInner]
  split
  · exact Process.Refines.of_fail _ _
  · rename_i child hChild
    split at hChild
    · rename_i hLess
      cases hChild
      have hLess' : ctx'.depth < limits'.maxDepth := by omega
      simp only [hLess', if_true]
      exact hWalk _ _ _ (by simp only; omega) hInner
    · cases hChild

/-- Evaluation does not depend on limits of concurrency, and more fuel does not change it, nor does
more room for nesting. -/
theorem Workflow.walk_refines_of_room (fuel : Nat) :
    ∀ {fuel' : Nat} {ctx ctx' : Context} {w w' : Workflow} (name : String) (payload : Json)
      (visited : List String), fuel ≤ fuel' →
      limits.maxDepth + ctx'.depth ≤ limits'.maxDepth + ctx.depth →
      w.withoutLimits = w'.withoutLimits →
      (w.walk limits fuel ctx name payload visited).Refines answers
        (w'.walk limits' fuel' ctx' name payload visited) := by
  -- The workflows inside a state and the states after it are both walked with one step less.
  induction fuel with
  | zero =>
    rintro fuel' ctx ctx' w w' name payload visited - - - r ⟨⟩
  | succ fuel ih =>
    rintro fuel' ctx ctx' w w' name payload visited hFuel hRoom hAlike ⟨o, cs⟩ h
    obtain ⟨fuel', rfl⟩ : ∃ n, fuel' = n + 1 := ⟨fuel' - 1, by omega⟩
    have hLess : fuel ≤ fuel' := by omega
    have hSite : (ctx.siteAt limits fuel name).Refines answers (ctx'.siteAt limits' fuel' name) :=
      Context.siteAt_refines name hRoom fun _ _ _ => ih _ _ _ hLess
    obtain ⟨s, next, o', ds, es, hs, hNext, hStep, hRest, rfl⟩ := Workflow.eval_walk_eq_some.mp h
    have hState := Workflow.state?_of_alike hAlike name
    rw [hs] at hState
    obtain ⟨s', hs', hSame⟩ := Option.map_eq_some_iff.mp hState.symm
    have hNext' : s'.successor payload = .ok next := by
      rw [← State.successor_withoutLimits, hSame, State.successor_withoutLimits, hNext]
    refine Workflow.eval_walk_eq_some.mpr ⟨s', next, o', ds, es, hs', hNext',
      State.transition_refines hSite hSame.symm payload _ hStep, ?_, rfl⟩
    cases next with
    | none => exact hRest
    | some next => exact ih next o'.payload _ hLess hRoom hAlike _ hRest

/-- `Workflow.walk_refines_of_room` at equal depths. -/
theorem Workflow.walk_refines (hDepth : limits.maxDepth = limits'.maxDepth) (fuel : Nat)
    {fuel' : Nat} {ctx ctx' : Context} {w w' : Workflow} (name : String) (payload : Json)
    (visited : List String) (hFuel : fuel ≤ fuel') (hCtx : ctx.depth = ctx'.depth)
    (hAlike : w.withoutLimits = w'.withoutLimits) :
    (w.walk limits fuel ctx name payload visited).Refines answers
      (w'.walk limits' fuel' ctx' name payload visited) :=
  Workflow.walk_refines_of_room fuel name payload visited hFuel (by omega) hAlike

end Transition

/-- No call takes longer than it may. -/
def Caller.InTime (caller : Caller) (timeout : Option Nat) : Prop :=
  ∀ past r limit, timeout = some limit → (caller past r).delay ≤ limit

theorem Caller.InTime.respond {caller : Caller} {timeout : Option Nat} (h : caller.InTime timeout)
    (world : World) (r : Request) :
    (Environment.mk caller timeout).respond world r = caller world.past r := by
  unfold Environment.respond
  cases hLimit : timeout with
  | none => rfl
  | some limit => exact if_neg (Nat.not_lt.mpr (h world.past r limit hLimit))

theorem Caller.AnswersBy.answer_respond {caller : Caller} (h : caller.AnswersBy answers)
    {timeout : Option Nat} (hTime : caller.InTime timeout) (world : World) (r : Request) :
    ((Environment.mk caller timeout).respond world r).answer = answers r.activity r.payload := by
  rw [hTime.respond]
  exact h world.past r

theorem Answers.caller_inTime (answers : Answers) {delay : List Request → Nat} {limit : Nat}
    (h : ∀ past, delay past ≤ limit) : (answers.caller delay).InTime (some limit) := by
  intro past r limit' hLimit
  cases hLimit
  exact h past

/-- Whether a run ends well does not depend on how its calls are scheduled: under other
limits of concurrency and other delays it ends with the same payload and the same trace, and
its calls are the same. -/
theorem Workflow.run_of_alike {w w' : Workflow} {limits limits' : Limits} {caller caller' : Caller}
    {fuel : Nat} {requestId requestId' : String} {payload : Json} {e : Execution} {o : Outcome}
    (hAlike : w.withoutLimits = w'.withoutLimits) (hDepth : limits.maxDepth = limits'.maxDepth)
    (hCaller : caller.AnswersBy answers) (hCaller' : caller'.AnswersBy answers)
    (hTime : caller.InTime limits.activityTimeout) (hTime' : caller'.InTime limits'.activityTimeout)
    (hRun : w.run limits caller fuel requestId payload = some e) (hOk : e.result = .ok o) :
    ∃ bound, ∀ fuel' ≥ bound, ∃ e', w'.run limits' caller' fuel' requestId' payload = some e' ∧
      e'.result = .ok o ∧ e'.callBag = e.callBag := by
  obtain ⟨cs, hEval⟩ := Workflow.eval_of_run hCaller hRun hOk
  have hCalls : e.callBag = cs := by
    rcases Workflow.run_of_eval (hCaller.answer_respond hTime) hEval with
      ⟨hNone, -⟩ | ⟨e₀, hRun₀, -, hBag⟩
    · rw [hNone] at hRun
      cases hRun
    · rw [hRun₀] at hRun
      cases hRun
      exact hBag
  refine ⟨max fuel (cs.length + 1), fun fuel' hFuel => ?_⟩
  have hEval' : (w'.process limits' fuel' requestId' payload).eval answers = some (o, cs) := by
    unfold Workflow.process at hEval ⊢
    rw [← Workflow.root_of_alike hAlike]
    have hCtx : (Context.top requestId).depth = (Context.top requestId').depth := rfl
    exact Workflow.walk_refines hDepth fuel _ _ _ (by omega) hCtx hAlike _ hEval
  rcases Workflow.run_of_eval (hCaller'.answer_respond hTime') hEval' with
    ⟨-, hShort⟩ | ⟨e', hRun', hOk', hBag'⟩
  · omega
  · exact ⟨e', hRun', hOk', hBag'.trans hCalls.symm⟩

/-- A map that calls an activity for each element, so many at a time. -/
def eachElement (limit : Option Nat) : Workflow :=
  ⟨"m", [("m", .map ⟨.activity "f", "xs", none, limit, none⟩)]⟩

/-- Whole numbers a hundred times as large. -/
def hundredfold : Answers
  | _, .int n => .ok (.int (n * 100))
  | _, v => .ok v

/-- One element at a time with calls of equal length, and both at once with the
first call the longest. -/
theorem Workflow.run_of_alike_eachElement :
    (eachElement (some 1)).withoutLimits = (eachElement (some 2)).withoutLimits ∧
      ∃ bound, ∀ fuel ≥ bound, ∃ e',
        (eachElement (some 2)).run ⟨3, some 5, some 7⟩
          (hundredfold.caller fun past => if past.isEmpty then 5 else 2) fuel "r"
          (.obj [("xs", .arr [.int 1, .int 2])]) = some e' ∧
        e'.result = .ok ⟨.obj [("xs", .arr [.int 100, .int 200])], ["m"]⟩ ∧
        e'.callBag = ([("f", .int 1), ("f", .int 2)] : List Call) := by
  have hAlike : (eachElement (some 1)).withoutLimits = (eachElement (some 2)).withoutLimits := rfl
  have hDepth : (Limits.mk 3 (some 3) none).maxDepth = (Limits.mk 3 (some 5) (some 7)).maxDepth :=
    rfl
  have hTime : (hundredfold.caller fun _ => 1).InTime (some 3) :=
    hundredfold.caller_inTime fun _ => by decide
  have hTime' : (hundredfold.caller fun past => if past.isEmpty then 5 else 2).InTime (some 5) :=
    hundredfold.caller_inTime fun _ => by split <;> decide
  have hEval : ((eachElement (some 1)).process ⟨3, some 3, none⟩ 10 "r"
      (.obj [("xs", .arr [.int 1, .int 2])])).eval hundredfold =
      some (⟨.obj [("xs", .arr [.int 100, .int 200])], ["m"]⟩, [("f", .int 1), ("f", .int 2)]) :=
    rfl
  rcases Workflow.run_of_eval ((hundredfold.caller_answersBy fun _ => 1).answer_respond hTime)
      hEval with
    ⟨-, hShort⟩ | ⟨e, hRun, hOk, hBag⟩
  · simp at hShort
  · refine ⟨hAlike, ?_⟩
    rw [← hBag]
    exact Workflow.run_of_alike hAlike hDepth (hundredfold.caller_answersBy _)
      (hundredfold.caller_answersBy _) hTime hTime' hRun hOk

end Orchestration
