import Orchestration.Proofs.Basic
import Orchestration.Proofs.Run.Evaluation

/-!
# Evaluation of transitions

What the transition of each kind of state evaluates to, and what one step of a walk does. All
processes of workflows are regular, so that a run which ends well has the outcome of its evaluation.

* `MapState.inputs_eq_ok_iff`: what a map reads before its calls.
* `MapState.eval_transition_eq_some`, `ParallelState.eval_transition_eq_some`: the states that fork.
* `Workflow.eval_walk_eq_some`: one step of a walk.
* `Workflow.walk_regular`: every walk is regular.
* `Workflow.eval_of_run`: a run that ends well has the outcome of its evaluation.
-/

namespace Orchestration

variable {answers : Answers} {site : Site} {limits : Limits}

/-! ## Inputs -/

theorem arrayAt_eq_ok_iff {payload : Json} {path : String} {elements : List Json} :
    arrayAt payload path = .ok elements ↔ Path.get payload path = .ok (.arr elements) := by
  unfold arrayAt
  cases Path.get payload path with
  | error e => simp
  | ok v => cases v <;> simp [Json.items?]

theorem sharedParams_cons_eq_ok_iff {payload : Json} {p : String} {paths : List String}
    {shared : Entries Json} :
    sharedParams payload (p :: paths) = .ok shared ↔
      ∃ v more, Path.get payload p = .ok v ∧ sharedParams payload paths = .ok more ∧
        (p, v) :: more = shared := by
  rw [sharedParams]
  cases Path.get payload p with
  | error e => simp
  | ok v =>
    simp only [bind_eq_ok_iff, pure_eq_ok_iff, Except.ok.injEq, exists_and_left, exists_eq_left']

/-- The inputs of a map are its elements, or what the common parameters make of them. -/
theorem MapState.inputs_eq_ok_iff {m : MapState} {payload : Json} {inputs : List Json} :
    m.inputs payload = .ok inputs ↔ ∃ elements, Path.get payload m.array = .ok (.arr elements) ∧
      (m.paramPaths = [] ∧ inputs = elements ∨
        m.paramPaths ≠ [] ∧ ∃ shared, sharedParams payload m.paramPaths = .ok shared ∧
          inputs = elements.map (elementInput shared)) := by
  rw [MapState.inputs]
  simp only [bind_eq_ok_iff, arrayAt_eq_ok_iff]
  refine exists_congr fun elements => and_congr_right fun _ => ?_
  cases m.paramPaths with
  | nil => simp [pure_eq_ok_iff, @eq_comm _ inputs]
  | cons p rest =>
    simp only [bind_eq_ok_iff, pure_eq_ok_iff, @eq_comm _ inputs, reduceCtorEq, false_and,
      false_or, ne_eq, not_false_eq_true, true_and]

/-! ## Sites -/

/-- How a workflow runs that stands inside a workflow of this context. -/
def Context.enter (ctx : Context) (limits : Limits) (fuel : Nat) (inner : Workflow) (input : Json) :
    Process :=
  match ctx.nested? limits.maxDepth with
  | none => .fail (.depthExceeded limits.maxDepth)
  | some child => Workflow.walk limits fuel child inner inner.root input []

/-- Where a state runs in a workflow of this context. -/
def Context.siteAt (ctx : Context) (limits : Limits) (fuel : Nat) (name : String) : Site :=
  ⟨name, ctx.requestId, ctx.enter limits fuel⟩

/-- One step of a walk: the state's transition, then the walk from its successor. -/
theorem Workflow.walk_succ (limits : Limits) (fuel : Nat) (ctx : Context) (w : Workflow)
    (name : String) (payload : Json) (visited : List String) :
    w.walk limits (fuel + 1) ctx name payload visited =
      match w.state? name with
      | none => .fail (.failedAt name payload (.unknownState name))
      | some s =>
        match s.successor payload with
        | .error e => (ctx.siteAt limits fuel name).fail payload e
        | .ok next =>
          (s.transition (ctx.siteAt limits fuel name) limits payload).andThen fun o =>
            match next with
            | none => .done (.ok ⟨o.payload, (name :: visited).reverse⟩)
            | some next => w.walk limits fuel ctx next o.payload (name :: visited) := by
  rw [Workflow.walk]
  rfl

/-- How a walk goes on when a state is through; the visited states are the latest first. -/
def Workflow.goOn (limits : Limits) (fuel : Nat) (ctx : Context) (w : Workflow)
    (next : Option String) (payload : Json) (visited : List String) : Process :=
  match next with
  | none => .done (.ok ⟨payload, visited.reverse⟩)
  | some next => w.walk limits fuel ctx next payload visited

theorem Workflow.walk_of_state {w : Workflow} {ctx : Context} {name : String} {s : State}
    (hState : w.state? name = some s) (fuel : Nat) (payload : Json) (visited : List String) :
    w.walk limits (fuel + 1) ctx name payload visited =
      match s.successor payload with
      | .error e => .fail (.failedAt name payload e)
      | .ok next => (s.transition (ctx.siteAt limits fuel name) limits payload).andThen fun o =>
        w.goOn limits fuel ctx next o.payload (name :: visited) := by
  rw [Workflow.walk_succ, hState]
  rfl

/-- A task among the states of a workflow: a call, and then the walk goes on. -/
theorem Workflow.walk_task {w : Workflow} {ctx : Context} {name : String} {t : TaskState}
    (hState : w.state? name = some (.task t)) (fuel : Nat) (payload : Json)
    (visited : List String) :
    w.walk limits (fuel + 1) ctx name payload visited =
      .call ⟨t.activity, payload, ctx.requestId⟩ fun
      | .ok v => w.goOn limits fuel ctx t.next v (name :: visited)
      | .error e => .fail (.failedAt name payload (.activity e)) := by
  rw [Workflow.walk_succ, hState]
  refine congrArg (Process.call _) (funext fun a => ?_)
  cases a <;> rfl

/-! ## Calls -/

theorem Site.eval_dispatch_eq_some {activity : String} {payload : Json} {o : Outcome}
    {cs : List Call} :
    (site.dispatch activity payload).eval answers = some (o, cs) ↔
      ∃ v, answers activity payload = .ok v ∧ o = ⟨v, []⟩ ∧ cs = [(activity, payload)] := by
  rw [Site.dispatch, Process.single, Process.eval_call_eq_some]
  constructor
  · rintro ⟨v, ds, hv, hNext, rfl⟩
    simp only [Process.eval_value, Option.some.injEq, Prod.mk.injEq] at hNext
    exact ⟨v, hv, hNext.1.symm, by rw [← hNext.2]; rfl⟩
  · rintro ⟨v, hv, rfl, rfl⟩
    exact ⟨v, [], hv, rfl, rfl⟩

theorem Site.eval_repeatCalls_succ {activity : String} {n : Nat} {payload : Json} {o : Outcome}
    {cs : List Call} :
    (site.repeatCalls activity (n + 1) payload).eval answers = some (o, cs) ↔
      ∃ v ds, answers activity payload = .ok v ∧
        (site.repeatCalls activity n v).eval answers = some (o, ds) ∧
        cs = (activity, payload) :: ds := by
  rw [Site.repeatCalls, Process.eval_call_eq_some]
  rfl

theorem Site.eval_loopCalls_cons {activity : String} {payload element : Json} {rest : List Json}
    {o : Outcome} {cs : List Call} :
    (site.loopCalls activity payload (element :: rest)).eval answers = some (o, cs) ↔
      ∃ v ds, answers activity element = .ok v ∧
        (site.loopCalls activity payload rest).eval answers = some (o, ds) ∧
        cs = (activity, element) :: ds := by
  rw [Site.loopCalls, Process.eval_call_eq_some]
  rfl

/-! ## Forks -/

/-- A map evaluates its body for each input and writes the results back. -/
theorem MapState.eval_transition_eq_some {m : MapState} {payload : Json} {o : Outcome}
    {cs : List Call} :
    (m.transition site limits payload).eval answers = some (o, cs) ↔
      ∃ inputs os v, m.inputs payload = .ok inputs ∧
        evalAll answers (inputs.map (m.body.process site)) = some (os, cs) ∧
        Path.set payload (.arr (os.map Outcome.payload)) m.array = .ok v ∧ o = ⟨v, []⟩ := by
  rw [MapState.transition]
  cases m.inputs payload with
  | error e => simp [Site.fail]
  | ok inputs =>
    simp only [Process.eval_fork_eq_some, Except.ok.injEq]
    constructor
    · rintro ⟨os, ds, es, hAll, hNext, rfl⟩
      cases hSet : Path.set payload (.arr (os.map Outcome.payload)) m.array with
      | error e => simp [hSet, Site.fail] at hNext
      | ok v =>
        simp only [hSet, Process.eval_value, Option.some.injEq, Prod.mk.injEq] at hNext
        obtain ⟨rfl, rfl⟩ := hNext
        exact ⟨inputs, os, v, rfl, by simpa using hAll, hSet, rfl⟩
    · rintro ⟨inputs', os, v, rfl, hAll, hSet, rfl⟩
      exact ⟨os, cs, [], hAll, by simp [hSet], by simp⟩

/-- A parallel state evaluates the strands of all its branches and collects their results. -/
theorem ParallelState.eval_transition_eq_some {p : ParallelState} {payload : Json} {o : Outcome}
    {cs : List Call} :
    (p.transition site payload).eval answers = some (o, cs) ↔
      ∃ plans os, branchPlans site payload p.branches = .ok plans ∧
        evalAll answers (plans.flatMap BranchPlan.strands) = some (os, cs) ∧
        o = ⟨.obj (mergeBranches [] plans (os.map Outcome.payload)), []⟩ := by
  rw [ParallelState.transition]
  cases branchPlans site payload p.branches with
  | error e => simp [Site.fail]
  | ok plans =>
    simp only [Process.eval_fork_eq_some, Except.ok.injEq]
    constructor
    · rintro ⟨os, ds, es, hAll, hNext, rfl⟩
      simp only [Process.eval_value, Option.some.injEq, Prod.mk.injEq] at hNext
      obtain ⟨rfl, rfl⟩ := hNext
      exact ⟨plans, os, rfl, by simpa using hAll, rfl⟩
    · rintro ⟨plans', os, rfl, hAll, rfl⟩
      exact ⟨os, cs, [], hAll, rfl, by simp⟩

theorem branchPlans_cons_eq_ok {payload : Json} {b : Branch} {rest : List Branch}
    {plans : List BranchPlan} :
    branchPlans site payload (b :: rest) = .ok plans ↔
      ∃ plan plans', b.plan site payload = .ok plan ∧ branchPlans site payload rest = .ok plans' ∧
        plans = plan :: plans' := by
  rw [branchPlans]
  cases b.plan site payload with
  | error e => simp [bind, Except.bind]
  | ok plan =>
    cases branchPlans site payload rest with
    | error e => simp [bind, Except.bind]
    | ok plans' => simp [bind, Except.bind, pure, Except.pure, eq_comm]

/-- The plans are those of the branches, in order. -/
theorem branchPlans_eq_ok_iff {payload : Json} {branches : List Branch} {plans : List BranchPlan} :
    branchPlans site payload branches = .ok plans ↔
      List.Forall₂ (fun b plan => b.plan site payload = .ok plan) branches plans := by
  induction branches generalizing plans with
  | nil =>
    rw [branchPlans, Except.ok.injEq, List.forall₂_nil_left_iff, eq_comm]
  | cons b rest ih => simp only [branchPlans_cons_eq_ok, List.forall₂_cons_left_iff, ih]

theorem exists_branch_of_branchPlans {payload : Json} {branches : List Branch}
    {plans : List BranchPlan} (h : branchPlans site payload branches = .ok plans)
    {plan : BranchPlan} (hMem : plan ∈ plans) :
    ∃ b ∈ branches, b.plan site payload = .ok plan :=
  exists_of_forall₂ (branchPlans_eq_ok_iff.mp h).flip hMem

/-- If there are no plans, that is for one of the branches. -/
theorem branchPlans_eq_error {payload : Json} {branches : List Branch} {e : RunError}
    (h : branchPlans site payload branches = .error e) :
    ∃ b ∈ branches, b.plan site payload = .error e := by
  induction branches with
  | nil => cases h
  | cons b rest ih =>
    rw [branchPlans] at h
    cases hPlan : b.plan site payload with
    | error e' =>
      rw [hPlan] at h
      cases h
      exact ⟨b, List.mem_cons_self, hPlan⟩
    | ok plan =>
      rw [hPlan] at h
      cases hRest : branchPlans site payload rest with
      | ok plans =>
        rw [hRest] at h
        cases h
      | error e' =>
        rw [hRest] at h
        cases h
        obtain ⟨c, hc, hError⟩ := ih hRest
        exact ⟨c, List.mem_cons_of_mem _ hc, hError⟩

/-! ## Plans one by one -/

/-- The strand of a branch that starts with a task: a call, or the workflow of several steps. -/
def Branch.taskStrand (site : Site) (b : Branch) (t : TaskState) (payload : Json) : Process :=
  match t.next with
  | some _ => site.enter b.workflow payload
  | none => site.dispatch t.activity payload

/-- The strand for an element of a branch that starts with a map. -/
def Branch.elementStrand (site : Site) (b : Branch) (activity : String) (input : Json) : Process :=
  match b.elementWorkflow with
  | some w => site.enter w input
  | none => site.dispatch activity input

theorem Branch.plan_eq_ok_iff {b : Branch} {payload : Json} {plan : BranchPlan} :
    b.plan site payload = .ok plan ↔
      (∃ t, b.workflow.rootState? = some (.task t) ∧
        plan = ⟨b.key, false, [b.taskStrand site t payload]⟩) ∨
      ∃ m activity inputs, b.workflow.rootState? = some (.map m) ∧ m.body = .activity activity ∧
        m.inputs payload = .ok inputs ∧
        plan = ⟨b.key, true, inputs.map (b.elementStrand site activity)⟩ := by
  constructor
  · intro h
    unfold Branch.plan at h
    split at h
    · rename_i t hRoot
      cases h
      exact .inl ⟨t, hRoot, rfl⟩
    · split at h
      · cases h
      · rename_i m hRoot _ activity hBody
        obtain ⟨inputs, hInputs, hPure⟩ := bind_eq_ok_iff.mp h
        cases pure_eq_ok_iff.mp hPure
        exact .inr ⟨m, activity, inputs, hRoot, hBody, hInputs, rfl⟩
    · cases h
    · cases h
  · rintro (⟨t, hRoot, rfl⟩ | ⟨m, activity, inputs, hRoot, hBody, hInputs, rfl⟩)
    · rw [Branch.plan, hRoot]
      rfl
    · simp only [Branch.plan, hRoot, hBody, hInputs]
      rfl

theorem Branch.plan_key {b : Branch} {payload : Json} {plan : BranchPlan}
    (h : b.plan site payload = .ok plan) : plan.key = b.key := by
  rcases Branch.plan_eq_ok_iff.mp h with ⟨_, -, rfl⟩ | ⟨_, _, _, -, -, -, rfl⟩ <;> rfl

/-- The same plan with other strands, each of which stands in the relation. -/
def BranchPlan.Pairs (R : Process → Process → Prop) (plan plan' : BranchPlan) : Prop :=
  plan.key = plan'.key ∧ plan.isMap = plan'.isMap ∧ List.Forall₂ R plan.strands plan'.strands

section Pairs

variable {R : Process → Process → Prop} {site' : Site}

theorem Branch.plan_pairs
    (hDispatch : ∀ activity payload,
      R (site.dispatch activity payload) (site'.dispatch activity payload))
    (hEnter : ∀ w input, R (site.enter w input) (site'.enter w input)) {b : Branch} {payload : Json}
    {plan : BranchPlan} (h : b.plan site payload = .ok plan) :
    ∃ plan', b.plan site' payload = .ok plan' ∧ plan.Pairs R plan' := by
  have hTask : ∀ t, R (b.taskStrand site t payload) (b.taskStrand site' t payload) := by
    intro t
    unfold Branch.taskStrand
    cases t.next with
    | none => exact hDispatch t.activity payload
    | some next => exact hEnter b.workflow payload
  have hElement : ∀ name input,
      R (b.elementStrand site name input) (b.elementStrand site' name input) := by
    intro name input
    unfold Branch.elementStrand
    cases b.elementWorkflow with
    | none => exact hDispatch name input
    | some w => exact hEnter w input
  rcases Branch.plan_eq_ok_iff.mp h with ⟨t, hRoot, rfl⟩
    | ⟨m, name, inputs, hRoot, hBody, hInputs, rfl⟩
  · exact ⟨_, Branch.plan_eq_ok_iff.mpr (.inl ⟨t, hRoot, rfl⟩), rfl, rfl, .cons (hTask t) .nil⟩
  · refine ⟨_, Branch.plan_eq_ok_iff.mpr (.inr ⟨m, name, inputs, hRoot, hBody, hInputs, rfl⟩),
      rfl, rfl, ?_⟩
    rw [List.forall₂_map_left_iff, List.forall₂_map_right_iff, List.forall₂_same]
    exact fun input _ => hElement name input

theorem branchPlans_pairs
    (hDispatch : ∀ activity payload,
      R (site.dispatch activity payload) (site'.dispatch activity payload))
    (hEnter : ∀ w input, R (site.enter w input) (site'.enter w input)) {branches : List Branch}
    {payload : Json} {plans : List BranchPlan} (h : branchPlans site payload branches = .ok plans) :
    ∃ plans', branchPlans site' payload branches = .ok plans' ∧
      List.Forall₂ (BranchPlan.Pairs R) plans plans' := by
  induction branches generalizing plans with
  | nil =>
    cases h
    exact ⟨[], rfl, .nil⟩
  | cons b rest ih =>
    obtain ⟨plan, plans', hPlan, hRest, rfl⟩ := branchPlans_cons_eq_ok.mp h
    obtain ⟨plan', hPlan', hHead⟩ := Branch.plan_pairs hDispatch hEnter hPlan
    obtain ⟨plans'', hRest', hTail⟩ := ih hRest
    exact ⟨plan' :: plans'', branchPlans_cons_eq_ok.mpr ⟨plan', plans'', hPlan', hRest', rfl⟩,
      .cons hHead hTail⟩

theorem flatMap_strands_pairs {plans plans' : List BranchPlan}
    (h : List.Forall₂ (BranchPlan.Pairs R) plans plans') :
    List.Forall₂ R (plans.flatMap BranchPlan.strands) (plans'.flatMap BranchPlan.strands) :=
  List.rel_flatMap h fun _ _ hPair => hPair.2.2

/-- The results of a parallel state are regrouped by keys and numbers of strands only. -/
theorem mergeBranches_of_pairs {plans plans' : List BranchPlan}
    (h : List.Forall₂ (BranchPlan.Pairs R) plans plans') (merged : Entries Json)
    (results : List Json) :
    mergeBranches merged plans results = mergeBranches merged plans' results := by
  induction h generalizing merged results with
  | nil => rfl
  | @cons plan plan' rest rest' hHead hRest ih =>
    obtain ⟨hKey, hMap, hStrands⟩ := hHead
    have hResult : plan.result = plan'.result := by
      funext rs
      unfold BranchPlan.result
      rw [hMap]
    rw [mergeBranches, mergeBranches, hStrands.length_eq, hKey, hResult]
    exact ih _ _

end Pairs

/-! ## Walks -/

/-- One step of a walk that is evaluated to its end. -/
theorem Workflow.eval_walk_eq_some {fuel : Nat} {ctx : Context} {w : Workflow} {name : String}
    {payload : Json} {visited : List String} {o : Outcome} {cs : List Call} :
    (w.walk limits (fuel + 1) ctx name payload visited).eval answers = some (o, cs) ↔
      ∃ s next o' ds es, w.state? name = some s ∧ s.successor payload = .ok next ∧
        (s.transition (ctx.siteAt limits fuel name) limits payload).eval answers = some (o', ds) ∧
        (match next with
          | none => o = ⟨o'.payload, (name :: visited).reverse⟩ ∧ es = []
          | some next =>
            (w.walk limits fuel ctx next o'.payload (name :: visited)).eval answers =
              some (o, es)) ∧
        cs = ds ++ es := by
  rw [Workflow.walk_succ]
  cases w.state? name with
  | none => simp
  | some s =>
    cases hNext : s.successor payload with
    | error e => simp [hNext, Site.fail]
    | ok next =>
      simp only [hNext, Process.eval_andThen_eq_some, Option.some.injEq]
      cases next with
      | none =>
        constructor
        · rintro ⟨o', ds, es, hStep, hEnd, rfl⟩
          simp only [Process.eval, Option.some.injEq, Prod.mk.injEq] at hEnd
          exact ⟨s, none, o', ds, es, rfl, hNext, hStep, ⟨hEnd.1.symm, hEnd.2.symm⟩, rfl⟩
        · rintro ⟨s', next', o', ds, es, rfl, hNext', hStep, hEnd, rfl⟩
          cases hNext.symm.trans hNext'
          obtain ⟨rfl, rfl⟩ := hEnd
          exact ⟨o', ds, [], hStep, rfl, rfl⟩
      | some next =>
        constructor
        · rintro ⟨o', ds, es, hStep, hWalk, rfl⟩
          exact ⟨s, some next, o', ds, es, rfl, hNext, hStep, hWalk, rfl⟩
        · rintro ⟨s', next', o', ds, es, rfl, hNext', hStep, hWalk, rfl⟩
          cases hNext.symm.trans hNext'
          exact ⟨o', ds, es, hStep, hWalk, rfl⟩

/-! ## Regularity -/

theorem Site.regular_fail (payload : Json) (cause : RunError) : (site.fail payload cause).Regular :=
  Process.regular_fail _

theorem Site.regular_repeatCalls (activity : String) (n : Nat) (payload : Json) :
    (site.repeatCalls activity n payload).Regular := by
  induction n generalizing payload with
  | zero => exact Process.regular_value payload
  | succ n ih =>
    rw [Site.repeatCalls, Process.Regular]
    exact ⟨fun v => ih v, fun e => ⟨_, rfl⟩⟩

theorem Site.regular_loopCalls (activity : String) (payload : Json) (elements : List Json) :
    (site.loopCalls activity payload elements).Regular := by
  induction elements with
  | nil => exact Process.regular_value payload
  | cons element rest ih =>
    rw [Site.loopCalls, Process.Regular]
    exact ⟨fun _ => ih, fun e => ⟨_, rfl⟩⟩

/-- Whatever stands inside the state is run by regular processes. -/
def Site.Regular (site : Site) : Prop := ∀ w input, (site.enter w input).Regular

theorem MapBody.regular_process (hSite : site.Regular) (body : MapBody) (input : Json) :
    (body.process site input).Regular := by
  cases body with
  | activity name => exact Process.regular_single _
  | workflow w => exact hSite w input

theorem MapState.regular_transition (hSite : site.Regular) (m : MapState) (payload : Json) :
    (m.transition site limits payload).Regular := by
  rw [MapState.transition]
  cases m.inputs payload with
  | error e => exact Site.regular_fail _ _
  | ok inputs =>
    simp only
    rw [Process.Regular]
    refine ⟨Nat.lt_of_lt_of_le Nat.zero_lt_one (Nat.le_max_left _ _), allRegular_iff.mpr ?_,
      fun os => ?_, fun e => ⟨_, rfl⟩⟩
    · intro p hp
      obtain ⟨input, -, rfl⟩ := List.mem_map.mp hp
      exact MapBody.regular_process hSite m.body input
    · simp only
      split
      · exact Process.regular_value _
      · exact Site.regular_fail _ _

theorem Branch.regular_plan (hSite : site.Regular) {b : Branch} {payload : Json} {plan : BranchPlan}
    (h : b.plan site payload = .ok plan) : ∀ p ∈ plan.strands, p.Regular := by
  rcases Branch.plan_eq_ok_iff.mp h with ⟨t, -, rfl⟩ | ⟨m, name, inputs, -, -, -, rfl⟩
  · intro p hp
    rw [List.mem_singleton.mp hp, Branch.taskStrand]
    split
    · exact hSite _ _
    · exact Process.regular_single _
  · intro p hp
    obtain ⟨input, -, rfl⟩ := List.mem_map.mp hp
    rw [Branch.elementStrand]
    split
    · exact hSite _ _
    · exact Process.regular_single _

theorem branchPlans_regular (hSite : site.Regular) {payload : Json} {branches : List Branch}
    {plans : List BranchPlan} (h : branchPlans site payload branches = .ok plans) :
    ∀ plan ∈ plans, ∀ p ∈ plan.strands, p.Regular := by
  intro plan hPlan p hp
  obtain ⟨b, -, hOwn⟩ := exists_branch_of_branchPlans h hPlan
  exact Branch.regular_plan hSite hOwn p hp

theorem ParallelState.regular_transition (hSite : site.Regular) (p : ParallelState)
    (payload : Json) :
    (p.transition site payload).Regular := by
  rw [ParallelState.transition]
  cases hPlans : branchPlans site payload p.branches with
  | error e => exact Site.regular_fail _ _
  | ok plans =>
    simp only
    rw [Process.Regular]
    refine ⟨?_, allRegular_iff.mpr ?_, fun os => Process.regular_value _, fun e => ⟨_, rfl⟩⟩
    · unfold parallelWidth
      split
      · trivial
      · rename_i hMany
        exact Nat.lt_of_le_of_lt (Nat.zero_le _) (Nat.lt_of_not_le hMany)
    · intro q hq
      obtain ⟨plan, hPlan, hq⟩ := List.mem_flatMap.mp hq
      exact branchPlans_regular hSite hPlans plan hPlan q hq

theorem State.regular_transition (hSite : site.Regular) (s : State) (payload : Json) :
    (s.transition site limits payload).Regular := by
  cases s with
  | task t => exact Site.regular_repeatCalls _ _ _
  | switch s => exact Process.regular_value _
  | map m => exact MapState.regular_transition hSite m payload
  | «repeat» r => exact Site.regular_repeatCalls _ _ _
  | loop l =>
    simp only [State.transition]
    split
    · exact Site.regular_fail _ _
    · exact Site.regular_loopCalls _ _ _
  | parallel p => exact ParallelState.regular_transition hSite p payload

/-- Every walk is regular. -/
theorem Workflow.walk_regular (fuel : Nat) :
    ∀ (ctx : Context) (w : Workflow) (name : String) (payload : Json) (visited : List String),
      (w.walk limits fuel ctx name payload visited).Regular := by
  induction fuel with
  | zero =>
    intro ctx w name payload visited
    rw [Workflow.walk, Process.Regular]
    trivial
  | succ fuel ih =>
    intro ctx w name payload visited
    have hSite : (ctx.siteAt limits fuel name).Regular := by
      intro inner input
      change (ctx.enter limits fuel inner input).Regular
      unfold Context.enter
      split
      · exact Process.regular_fail _
      · exact ih _ _ _ _ _
    rw [Workflow.walk_succ]
    split
    · exact Process.regular_fail _
    · split
      · exact Site.regular_fail _ _
      · refine Process.Regular.andThen (fun o => ?_) (State.regular_transition hSite _ _)
        split
        · simp [Process.Regular]
        · exact ih _ _ _ _ _

theorem Context.regular_siteAt (ctx : Context) (limits : Limits) (fuel : Nat) (name : String) :
    (ctx.siteAt limits fuel name).Regular := by
  intro inner input
  change (ctx.enter limits fuel inner input).Regular
  unfold Context.enter
  split
  · exact Process.regular_fail _
  · exact Workflow.walk_regular fuel _ _ _ _ _

/-! ## Runs -/

/-- The answers of a caller depend on the activity and the payload only; how
long they take may vary. -/
def Caller.AnswersBy (caller : Caller) (answers : Answers) : Prop :=
  ∀ past r, (caller past r).answer = answers r.activity r.payload

/-- The caller that gives these answers, each after a delay. -/
def Answers.caller (answers : Answers) (delay : List Request → Nat) : Caller := fun past r =>
  ⟨answers r.activity r.payload, delay past⟩

theorem Answers.caller_answersBy (answers : Answers) (delay : List Request → Nat) :
    (answers.caller delay).AnswersBy answers := fun _ _ => rfl

theorem Caller.AnswersBy.known {caller : Caller} (h : caller.AnswersBy answers)
    (timeout : Option Nat) (world : World) (r : Request) :
    answers.Known r ((Environment.mk caller timeout).respond world r).answer := by
  intro v hv
  unfold Environment.respond at hv
  split at hv
  · rw [← h world.past r]
    exact hv
  · dsimp only at hv
    split at hv
    · cases hv
    · rw [← h world.past r]
      exact hv

/-- A run that ends well has the outcome of its evaluation. -/
theorem Workflow.eval_of_run {w : Workflow} {caller : Caller} {fuel : Nat} {requestId : String}
    {payload : Json} {e : Execution} {o : Outcome} (hCaller : caller.AnswersBy answers)
    (hRun : w.run limits caller fuel requestId payload = some e) (hOk : e.result = .ok o) :
    ∃ cs, (w.process limits fuel requestId payload).eval answers = some (o, cs) :=
  Workflow.run_meets (hCaller.known limits.activityTimeout)
    (Process.Regular.meets_evalPost (Workflow.walk_regular fuel _ w _ payload [])) hRun o hOk

end Orchestration
