import Orchestration.Proofs.Run.Alone
import Orchestration.Proofs.Run.FanOut

/-!
# Branches of parallel states

All calls of a parallel state run side by side in one list, which is cut up again by
branches when they are through.

* `Branch.Gives`: what a branch comes to on its own. `Branch.Makes`: a process is one of its calls.
* `mergeBranches_flatten`: the list is cut up where the results of one branch end and
  those of the next begin.
* `Branch.gives_of_evaluates`, `Branch.exists_evaluates`: what the calls of a branch come to inside
  the state is what the branch gives on its own.
* `ParallelState.givesBranches`: a parallel state succeeds if and only if all its branches give
  results, and it comes to these results under their keys. It fails as one of its calls does, or for
  inputs that are not there.
-/

namespace Orchestration

/-! ## What branches give -/

/-- The results for the elements of an array; a single one stands bare. -/
def Json.ofElements : List Json → Json
  | [result] => result
  | results => .arr results

section Spec

variable (limits : Limits) (caller : Caller) (answers : Answers) (requestId : String)

/-- What an element comes to: what its activity answers, or what the workflow for
elements gives on its own. -/
def Branch.GivesElement (b : Branch) (activity : String) (input result : Json) : Prop :=
  match b.elementWorkflow with
  | none => answers activity input = .ok result
  | some w => w.Gives limits caller requestId input result

/-- What a branch comes to on its own: what its workflow gives, or the results for
the elements of its map. -/
inductive Branch.Gives (b : Branch) (payload : Json) : Json → Prop
  | task {t : TaskState} {result : Json} (hRoot : b.workflow.rootState? = some (.task t))
    (hOwn : b.workflow.Gives limits caller requestId payload result) : Gives b payload result
  | map {m : MapState} {activity : String} {inputs results : List Json}
    (hRoot : b.workflow.rootState? = some (.map m)) (hBody : m.body = .activity activity)
    (hInputs : m.inputs payload = .ok inputs)
    (hEach : List.Forall₂ (b.GivesElement limits caller answers requestId activity) inputs
      results) :
    Gives b payload (.ofElements results)

/-- A call of a branch: one call of an activity, or a workflow as it runs on its own. -/
inductive Branch.Makes (fuel : Nat) (b : Branch) (payload : Json) : Process → Prop
  | task {t : TaskState} (hRoot : b.workflow.rootState? = some (.task t)) (hNext : t.next = none) :
    Makes fuel b payload (.single ⟨t.activity, payload, requestId⟩)
  | workflow {t : TaskState} {next : String} (hRoot : b.workflow.rootState? = some (.task t))
    (hNext : t.next = some next) :
      Makes fuel b payload (b.workflow.process limits fuel requestId payload)
  | element {m : MapState} {activity : String} {inputs : List Json} {input : Json}
    (hRoot : b.workflow.rootState? = some (.map m)) (hBody : m.body = .activity activity)
    (hInputs : m.inputs payload = .ok inputs) (hInput : input ∈ inputs)
    (hElement : b.elementWorkflow = none) :
    Makes fuel b payload (.single ⟨activity, input, requestId⟩)
  | elementWorkflow {m : MapState} {inputs : List Json} {input : Json} {w : Workflow}
    (hRoot : b.workflow.rootState? = some (.map m)) (hInputs : m.inputs payload = .ok inputs)
    (hInput : input ∈ inputs) (hElement : b.elementWorkflow = some w) :
    Makes fuel b payload (w.process limits fuel requestId input)

end Spec

/-! ## Lists of calls -/

section Lists

variable {answers : Answers}

/-- The results of several lists in a row are lists of results in a row. -/
theorem forall₂_flatMap_iff {α β γ : Type} {R : β → γ → Prop} {f : α → List β} {as : List α}
    {cs : List γ} :
    List.Forall₂ R (as.flatMap f) cs ↔
      ∃ css : List (List γ), cs = css.flatten ∧
        List.Forall₂ (fun a cs => List.Forall₂ R (f a) cs) as css := by
  induction as generalizing cs with
  | nil =>
    simp only [List.flatMap_nil, List.forall₂_nil_left_iff]
    constructor
    · rintro rfl
      exact ⟨[], rfl, rfl⟩
    · rintro ⟨_, rfl, rfl⟩
      rfl
  | cons a rest ih =>
    rw [List.flatMap_cons]
    constructor
    · intro h
      have hHead := List.forall₂_take_append cs (f a) (rest.flatMap f) h.flip
      have hRest := List.forall₂_drop_append cs (f a) (rest.flatMap f) h.flip
      obtain ⟨css, hcss, hEach⟩ := ih.mp hRest.flip
      refine ⟨cs.take (f a).length :: css, ?_, .cons hHead.flip hEach⟩
      rw [List.flatten_cons, ← hcss, List.take_append_drop]
    · rintro ⟨css, rfl, hEach⟩
      obtain ⟨c, rest', hHead, hRest, rfl⟩ := List.forall₂_cons_left_iff.mp hEach
      exact List.rel_append hHead (ih.mpr ⟨rest', rfl, hRest⟩)

/-- What holds of each pair from some number on holds of all pairs from some number on. -/
theorem exists_bound_forall₂ {α β : Type} {R : Nat → α → β → Prop} {as : List α} {bs : List β}
    (h : List.Forall₂ (fun a b => ∃ n, ∀ m ≥ n, R m a b) as bs) :
    ∃ n, ∀ m ≥ n, List.Forall₂ (R m) as bs := by
  induction h with
  | nil => exact ⟨0, fun _ _ => .nil⟩
  | cons hHead _ ih =>
    obtain ⟨n, hn⟩ := hHead
    obtain ⟨n', hn'⟩ := ih
    exact ⟨max n n', fun m hm => .cons (hn m (by omega)) (hn' m (by omega))⟩

theorem exists_evalAll_iff {ps : List Process} {results : List Json} :
    (∃ os cs, evalAll answers ps = some (os, cs) ∧ os.map Outcome.payload = results) ↔
      List.Forall₂ (Process.Returns answers) ps results := by
  constructor
  · rintro ⟨os, cs, h, rfl⟩
    rw [List.forall₂_map_right_iff]
    exact (forall₂_of_evalAll h).imp fun p o ⟨ds, hEval⟩ => ⟨o, ds, hEval, rfl⟩
  · intro h
    induction h with
    | nil => exact ⟨[], [], rfl, rfl⟩
    | cons hHead _ ih =>
      obtain ⟨o, ds, hHead, rfl⟩ := hHead
      obtain ⟨os, es, hRest, rfl⟩ := ih
      exact ⟨o :: os, ds ++ es, evalAll_cons_eq_some.mpr ⟨o, os, ds, es, hHead, hRest, rfl, rfl⟩,
        rfl⟩

/-- The results of the calls of all branches are cut up where those of one branch end. -/
theorem mergeBranches_flatten {plans : List BranchPlan} {resultss : List (List Json)}
    (h : List.Forall₂ (fun plan results => plan.strands.length = results.length) plans resultss)
    (merged : Entries Json) :
    mergeBranches merged plans resultss.flatten =
      merged.insertAll
        (List.zipWith (fun plan results => (plan.key, plan.result results)) plans resultss) := by
  induction h generalizing merged with
  | nil => rfl
  | cons hLength _ ih =>
    rw [mergeBranches, List.flatten_cons, hLength, List.take_left, List.drop_left, ih]
    rfl

end Lists

/-! ## Evaluation branch by branch -/

section Evaluation

variable {answers : Answers} {site : Site}

/-- The calls of the branch evaluate, and this is made of their results. -/
def Branch.Evaluates (answers : Answers) (site : Site) (b : Branch)
    (payload result : Json) : Prop :=
  ∃ plan results, b.plan site payload = .ok plan ∧
    List.Forall₂ (Process.Returns answers) plan.strands results ∧ result = plan.result results

/-- Branches with the results of their calls, by key. -/
theorem entries_of_plans_iff {payload : Json} {branches : List Branch} {entries : Entries Json} :
    (∃ plans resultss,
      List.Forall₂ (fun b plan => b.plan site payload = .ok plan) branches plans ∧
      List.Forall₂ (fun plan results => List.Forall₂ (Process.Returns answers) plan.strands results)
        plans resultss ∧
      entries = List.zipWith (fun plan results => (plan.key, plan.result results)) plans resultss) ↔
    ∃ results,
      List.Forall₂ (fun b result => b.Evaluates answers site payload result) branches results ∧
      entries = (branches.map Branch.key).zip results := by
  induction branches generalizing entries with
  | nil => simp [eq_comm]
  | cons b rest ih =>
    constructor
    · rintro ⟨_, _, hPlans, hResults, rfl⟩
      obtain ⟨plan, plans, hPlan, hRest, rfl⟩ := List.forall₂_cons_left_iff.mp hPlans
      obtain ⟨rs, rss, hHead, hTail, rfl⟩ := List.forall₂_cons_left_iff.mp hResults
      obtain ⟨results, hEach, hEntries⟩ := ih.mp ⟨plans, rss, hRest, hTail, rfl⟩
      refine ⟨plan.result rs :: results, .cons ⟨plan, rs, hPlan, hHead, rfl⟩ hEach, ?_⟩
      rw [List.zipWith_cons_cons, hEntries, Branch.plan_key hPlan]
      rfl
    · rintro ⟨_, hResults, rfl⟩
      obtain ⟨_, results, ⟨plan, rs, hPlan, hHead, rfl⟩, hTail, rfl⟩ :=
        List.forall₂_cons_left_iff.mp hResults
      obtain ⟨plans, rss, hRest, hEach, hEntries⟩ := ih.mpr ⟨results, hTail, rfl⟩
      refine ⟨plan :: plans, rs :: rss, .cons hPlan hRest, .cons hHead hEach, ?_⟩
      rw [List.zipWith_cons_cons, ← hEntries, Branch.plan_key hPlan]
      rfl

/-- A parallel state evaluates to the results of its branches under their keys. -/
theorem ParallelState.returns_iff {p : ParallelState} (hKeys : (p.branches.map Branch.key).Nodup)
    {payload result : Json} :
    (p.transition site payload).Returns answers result ↔
      ∃ results,
        List.Forall₂ (fun b result => b.Evaluates answers site payload result) p.branches results ∧
        result = .obj ((p.branches.map Branch.key).zip results) := by
  have hMerge : ∀ {plans : List BranchPlan} {resultss : List (List Json)} {results : List Json},
      List.Forall₂ (fun plan results => List.Forall₂ (Process.Returns answers) plan.strands results)
        plans resultss →
      List.Forall₂ (fun b result => b.Evaluates answers site payload result) p.branches results →
      List.zipWith (fun plan results => (plan.key, plan.result results)) plans resultss =
        (p.branches.map Branch.key).zip results →
      mergeBranches [] plans resultss.flatten = (p.branches.map Branch.key).zip results := by
    intro plans resultss results hCalls hEach hEntries
    rw [mergeBranches_flatten (hCalls.imp fun _ _ h => h.length_eq), hEntries]
    refine Entries.ofWrites_of_nodup ?_
    rw [Entries.keys, List.map_fst_zip (by simp [hEach.length_eq])]
    exact hKeys
  constructor
  · rintro ⟨o, cs, hEval, rfl⟩
    obtain ⟨plans, os, hPlans, hAll, rfl⟩ := ParallelState.eval_transition_eq_some.mp hEval
    obtain ⟨resultss, hCut, hCalls⟩ :=
      forall₂_flatMap_iff.mp (exists_evalAll_iff.mp ⟨os, cs, hAll, rfl⟩)
    obtain ⟨results, hEach, hEntries⟩ :=
      entries_of_plans_iff.mp ⟨plans, resultss, branchPlans_eq_ok_iff.mp hPlans, hCalls, rfl⟩
    refine ⟨results, hEach, ?_⟩
    rw [hCut, hMerge hCalls hEach hEntries]
  · rintro ⟨results, hEach, rfl⟩
    obtain ⟨plans, resultss, hPlans, hCalls, hEntries⟩ :=
      entries_of_plans_iff.mpr ⟨results, hEach, rfl⟩
    obtain ⟨os, cs, hAll, hCut⟩ :=
      exists_evalAll_iff.mpr (forall₂_flatMap_iff.mpr ⟨resultss, rfl, hCalls⟩)
    refine ⟨_, cs, ParallelState.eval_transition_eq_some.mpr
      ⟨plans, os, branchPlans_eq_ok_iff.mpr hPlans, hAll, rfl⟩, ?_⟩
    rw [hCut, hMerge hCalls hEach hEntries.symm]

end Evaluation

/-! ## Strands of a branch -/

section Strands

variable {site : Site} {b : Branch} {payload : Json}

/-- The branches of a valid state can be planned, unless the inputs of a map are not there. -/
theorem Branch.inputs_of_plan_error {name : String} {e : RunError}
    (hValid : b.validate name = .ok ()) (h : b.plan site payload = .error e) :
    ∃ m, b.workflow.rootState? = some (.map m) ∧ m.inputs payload = .error e := by
  rcases Branch.rootState?_of_validate hValid with ⟨t, hRoot⟩ | ⟨m, activity, hRoot, hBody⟩
  · cases (Branch.plan_eq_ok_iff.mpr (.inl ⟨t, hRoot, rfl⟩)).symm.trans h
  · refine ⟨m, hRoot, ?_⟩
    cases hInputs : m.inputs payload with
    | ok inputs =>
      cases (Branch.plan_eq_ok_iff.mpr
        (.inr ⟨m, activity, inputs, hRoot, hBody, hInputs, rfl⟩)).symm.trans h
    | error e' =>
      simp only [Branch.plan, hRoot, hBody, hInputs] at h
      exact congrArg Except.error (Except.error.inj h)

variable {limits : Limits} {ctx : Context} {fuel : Nat} {name : String}

theorem Branch.taskStrand_of_next {t : TaskState} {next : String}
    (hRoom : ctx.depth + b.nesting ≤ limits.maxDepth)
    (hRoot : b.workflow.rootState? = some (.task t)) (hNext : t.next = some next) :
    b.taskStrand (ctx.siteAt limits fuel name) t payload =
      b.workflow.process limits fuel ctx.requestId payload := by
  have hLess := Branch.nesting_lt_of_next hRoot hNext
  rw [Branch.taskStrand, hNext]
  exact Context.enter_eq_process (by omega) fuel payload

theorem Branch.elementStrand_of_workflow {w : Workflow} {activity : String} {input : Json}
    (hRoom : ctx.depth + b.nesting ≤ limits.maxDepth) (hElement : b.elementWorkflow = some w) :
    b.elementStrand (ctx.siteAt limits fuel name) activity input =
      w.process limits fuel ctx.requestId input := by
  have hLess := Branch.nesting_elementWorkflow_lt hElement
  rw [Branch.elementStrand, hElement]
  exact Context.enter_eq_process (by omega) fuel input

theorem Branch.makes_iff_of_task {t : TaskState} (hRoom : ctx.depth + b.nesting ≤ limits.maxDepth)
    (hRoot : b.workflow.rootState? = some (.task t)) {call : Process} :
    b.Makes limits ctx.requestId fuel payload call ↔
      call = b.taskStrand (ctx.siteAt limits fuel name) t payload := by
  constructor
  · intro h
    cases h with
    | task hTask hNext =>
      cases hRoot.symm.trans hTask
      rw [Branch.taskStrand, hNext]
      rfl
    | workflow hTask hNext =>
      cases hRoot.symm.trans hTask
      rw [Branch.taskStrand_of_next hRoom hRoot hNext]
    | element hMap => cases hRoot.symm.trans hMap
    | elementWorkflow hMap => cases hRoot.symm.trans hMap
  · rintro rfl
    cases hNext : t.next with
    | none =>
      rw [Branch.taskStrand, hNext]
      exact .task hRoot hNext
    | some next =>
      rw [Branch.taskStrand_of_next hRoom hRoot hNext]
      exact .workflow hRoot hNext

theorem Branch.makes_iff_of_map {m : MapState} {activity : String} {inputs : List Json}
    (hRoom : ctx.depth + b.nesting ≤ limits.maxDepth)
    (hRoot : b.workflow.rootState? = some (.map m)) (hBody : m.body = .activity activity)
    (hInputs : m.inputs payload = .ok inputs) {call : Process} :
    b.Makes limits ctx.requestId fuel payload call ↔
      ∃ input ∈ inputs, b.elementStrand (ctx.siteAt limits fuel name) activity input = call := by
  constructor
  · intro h
    cases h with
    | task hTask => cases hRoot.symm.trans hTask
    | workflow hTask => cases hRoot.symm.trans hTask
    | @element _ _ _ input hMap hCalls hRead hInput hElement =>
      cases hRoot.symm.trans hMap
      cases hBody.symm.trans hCalls
      cases hInputs.symm.trans hRead
      refine ⟨input, hInput, ?_⟩
      rw [Branch.elementStrand, hElement]
      rfl
    | @elementWorkflow _ _ input _ hMap hRead hInput hElement =>
      cases hRoot.symm.trans hMap
      cases hInputs.symm.trans hRead
      exact ⟨input, hInput, Branch.elementStrand_of_workflow hRoom hElement⟩
  · rintro ⟨input, hInput, rfl⟩
    cases hElement : b.elementWorkflow with
    | none =>
      rw [Branch.elementStrand, hElement]
      exact .element hRoot hBody hInputs hInput hElement
    | some w =>
      rw [Branch.elementStrand_of_workflow hRoom hElement]
      exact .elementWorkflow hRoot hInputs hInput hElement

/-- The strands of a branch are its calls. -/
theorem Branch.mem_strands_iff {plan : BranchPlan} (hRoom : ctx.depth + b.nesting ≤ limits.maxDepth)
    (h : b.plan (ctx.siteAt limits fuel name) payload = .ok plan) {call : Process} :
    call ∈ plan.strands ↔ b.Makes limits ctx.requestId fuel payload call := by
  rcases Branch.plan_eq_ok_iff.mp h with ⟨t, hRoot, rfl⟩
    | ⟨m, activity, inputs, hRoot, hBody, hInputs, rfl⟩
  · exact List.mem_singleton.trans (Branch.makes_iff_of_task hRoom hRoot).symm
  · exact List.mem_map.trans (Branch.makes_iff_of_map hRoom hRoot hBody hInputs).symm

end Strands

/-! ## Branches on their own -/

section Alone

variable {limits : Limits} {caller : Caller} {answers : Answers} {ctx : Context}
  {name requestId : String}
variable {b : Branch} {payload result : Json}

theorem Site.returns_dispatch_iff {site : Site} {activity : String} :
    (site.dispatch activity payload).Returns answers result ↔
      answers activity payload = .ok result := by
  constructor
  · rintro ⟨o, cs, hEval, rfl⟩
    obtain ⟨v, hv, rfl, -⟩ := Site.eval_dispatch_eq_some.mp hEval
    exact hv
  · intro hv
    exact ⟨⟨result, []⟩, _, Site.eval_dispatch_eq_some.mpr ⟨result, hv, rfl, rfl⟩, rfl⟩

/-- A workflow that is just one task gives what the task's activity answers. -/
theorem Workflow.returns_task_iff {w : Workflow} {t : TaskState}
    (hRoot : w.rootState? = some (.task t)) (hNext : t.next = none) {fuel : Nat} :
    (w.process limits (fuel + 1) requestId payload).Returns answers result ↔
      answers t.activity payload = .ok result := by
  constructor
  · rintro ⟨o, cs, hEval, rfl⟩
    obtain ⟨s, next, o', ds, es, hState, hNext', hStep, hEnd, -⟩ :=
      Workflow.eval_walk_eq_some.mp hEval
    cases hRoot.symm.trans hState
    cases hNext.symm.trans (Except.ok.inj hNext')
    obtain ⟨v, ds, hv, hRest, -⟩ := Site.eval_repeatCalls_succ.mp hStep
    cases hRest
    rw [hEnd.1]
    exact hv
  · intro hv
    have hStep :
        ((State.task t).transition ((Context.top requestId).siteAt limits fuel w.root) limits
          payload).eval answers = some (⟨result, []⟩, [(t.activity, payload)]) :=
      Site.eval_repeatCalls_succ.mpr ⟨result, [], hv, rfl, rfl⟩
    exact ⟨_, _, Workflow.eval_walk_eq_some.mpr
      ⟨_, _, _, _, _, hRoot, congrArg Except.ok hNext, hStep, ⟨rfl, rfl⟩, rfl⟩, rfl⟩

theorem BranchPlan.result_map (key : String) (strands : List Process) (results : List Json) :
    (BranchPlan.mk key true strands).result results = .ofElements results := by
  rcases results with _ | ⟨r, _ | ⟨r', rest⟩⟩ <;> rfl

variable (hEnv : ∀ world r,
  ((Environment.mk caller limits.activityTimeout).respond world r).answer =
  answers r.activity r.payload)
variable (hRoom : ctx.depth + b.nesting ≤ limits.maxDepth)
include hEnv hRoom

/-- What the strand of a task comes to, the workflow gives, whether the
strand calls it or runs it. -/
theorem Branch.gives_of_taskStrand {t : TaskState} {fuel : Nat}
    (hRoot : b.workflow.rootState? = some (.task t))
    (h : (b.taskStrand (ctx.siteAt limits fuel name) t payload).Returns answers result) :
    b.workflow.Gives limits caller requestId payload result := by
  cases hNext : t.next with
  | none =>
    rw [Branch.taskStrand, hNext] at h
    have hTask : (b.workflow.process limits 1 requestId payload).Returns answers result :=
      (Workflow.returns_task_iff hRoot hNext).mpr (Site.returns_dispatch_iff.mp h)
    exact Workflow.gives_of_returns hEnv hTask
  | some next =>
    rw [Branch.taskStrand_of_next hRoom hRoot hNext] at h
    exact Workflow.gives_of_returns hEnv h

theorem Branch.exists_returns_taskStrand {t : TaskState}
    (hRoot : b.workflow.rootState? = some (.task t))
    (h : b.workflow.Gives limits caller requestId payload result) :
    ∃ n, ∀ m ≥ n, (b.taskStrand (ctx.siteAt limits m name) t payload).Returns answers result := by
  obtain ⟨n, hn⟩ := h.exists_returns hEnv ctx.requestId
  refine ⟨n, fun m hm => ?_⟩
  cases hNext : t.next with
  | none =>
    rw [Branch.taskStrand, hNext]
    exact Site.returns_dispatch_iff.mpr
      ((Workflow.returns_task_iff hRoot hNext).mp (hn (m + 1) (by omega)))
  | some next =>
    rw [Branch.taskStrand_of_next hRoom hRoot hNext]
    exact hn m hm

theorem Branch.givesElement_of_elementStrand {activity : String} {input : Json} {fuel : Nat}
    (h : (b.elementStrand (ctx.siteAt limits fuel name) activity input).Returns answers result) :
    b.GivesElement limits caller answers requestId activity input result := by
  unfold Branch.GivesElement
  cases hElement : b.elementWorkflow with
  | none =>
    rw [Branch.elementStrand, hElement] at h
    exact Site.returns_dispatch_iff.mp h
  | some w =>
    rw [Branch.elementStrand_of_workflow hRoom hElement] at h
    exact Workflow.gives_of_returns hEnv h

theorem Branch.exists_returns_elementStrand {activity : String} {input : Json}
    (h : b.GivesElement limits caller answers requestId activity input result) :
    ∃ n, ∀ m ≥ n,
    (b.elementStrand (ctx.siteAt limits m name) activity input).Returns answers result := by
  unfold Branch.GivesElement at h
  cases hElement : b.elementWorkflow with
  | none =>
    rw [hElement] at h
    refine ⟨0, fun m _ => ?_⟩
    rw [Branch.elementStrand, hElement]
    exact Site.returns_dispatch_iff.mpr h
  | some w =>
    rw [hElement] at h
    obtain ⟨n, hn⟩ := Workflow.Gives.exists_returns hEnv h ctx.requestId
    refine ⟨n, fun m hm => ?_⟩
    rw [Branch.elementStrand_of_workflow hRoom hElement]
    exact hn m hm

/-- What the calls of a branch come to inside the state, the branch gives on its own. -/
theorem Branch.gives_of_evaluates {fuel : Nat}
    (h : b.Evaluates answers (ctx.siteAt limits fuel name) payload result) :
    b.Gives limits caller answers requestId payload result := by
  obtain ⟨plan, results, hPlan, hResults, rfl⟩ := h
  rcases Branch.plan_eq_ok_iff.mp hPlan with ⟨t, hRoot, rfl⟩
    | ⟨m, activity, inputs, hRoot, hBody, hInputs, rfl⟩
  · obtain ⟨r, _, hCall, hNil, rfl⟩ := List.forall₂_cons_left_iff.mp hResults
    cases hNil
    exact .task hRoot (Branch.gives_of_taskStrand hEnv hRoom hRoot hCall)
  · rw [BranchPlan.result_map]
    refine .map hRoot hBody hInputs
      ((List.forall₂_map_left_iff.mp hResults).imp fun input r hCall => ?_)
    exact Branch.givesElement_of_elementStrand hEnv hRoom hCall

/-- What a branch gives on its own, its calls come to inside the state, with enough fuel. -/
theorem Branch.exists_evaluates (h : b.Gives limits caller answers requestId payload result) :
    ∃ n, ∀ m ≥ n, b.Evaluates answers (ctx.siteAt limits m name) payload result := by
  cases h with
  | @task t _ hRoot hOwn =>
    obtain ⟨n, hn⟩ : ∃ n, ∀ m ≥ n,
        (b.taskStrand (ctx.siteAt limits m name) t payload).Returns answers result :=
      Branch.exists_returns_taskStrand hEnv hRoom hRoot hOwn
    refine ⟨n, fun m hm => ⟨_, [result], Branch.plan_eq_ok_iff.mpr (.inl ⟨t, hRoot, rfl⟩), ?_, rfl⟩⟩
    exact .cons (hn m hm) .nil
  | @map m activity inputs results hRoot hBody hInputs hEach =>
    have hEventually : List.Forall₂ (fun input r => ∃ n, ∀ k ≥ n,
        (b.elementStrand (ctx.siteAt limits k name) activity input).Returns answers r) inputs
          results :=
      hEach.imp fun _ _ hElement => Branch.exists_returns_elementStrand hEnv hRoom hElement
    obtain ⟨n, hn⟩ := exists_bound_forall₂ hEventually
    refine ⟨n, fun k hk => ⟨_, results,
      Branch.plan_eq_ok_iff.mpr (.inr ⟨m, activity, inputs, hRoot, hBody, hInputs, rfl⟩), ?_, ?_⟩⟩
    · exact List.forall₂_map_left_iff.mpr (hn k hk)
    · rw [BranchPlan.result_map]

end Alone

/-! ## Parallel states -/

section Parallel

variable {limits : Limits} {env : Environment} {ctx : Context} {fuel : Nat} {name : String}
  {p : ParallelState}
variable {payload : Json}

/-- The inputs of all maps among the branches are there. -/
def ParallelState.InputsResolve (p : ParallelState) (payload : Json) : Prop :=
  ∀ b ∈ p.branches, ∀ m, b.workflow.rootState? = some (.map m) →
    ∃ inputs, m.inputs payload = .ok inputs

/-- A call of one of the branches. -/
def ParallelState.Makes (limits : Limits) (requestId : String) (fuel : Nat) (p : ParallelState)
    (payload : Json) (call : Process) : Prop :=
  ∃ b ∈ p.branches, b.Makes limits requestId fuel payload call

theorem ParallelState.inputsResolve_of_plans {site : Site} {plans : List BranchPlan}
    (h : branchPlans site payload p.branches = .ok plans) : p.InputsResolve payload := by
  intro b hBranch m hRoot
  obtain ⟨plan, -, hPlan⟩ := exists_of_forall₂ (branchPlans_eq_ok_iff.mp h) hBranch
  rcases Branch.plan_eq_ok_iff.mp hPlan with ⟨t, hTask, -⟩
    | ⟨m', activity, inputs, hMap, -, hInputs, -⟩
  · cases hRoot.symm.trans hTask
  · cases hRoot.symm.trans hMap
    exact ⟨inputs, hInputs⟩

section Rooms

variable (hRoom : ctx.depth + (State.parallel p).nesting ≤ limits.maxDepth)
include hRoom

theorem ParallelState.room {b : Branch} (hBranch : b ∈ p.branches) :
    ctx.depth + b.nesting ≤ limits.maxDepth := by
  obtain ⟨branches, next⟩ := p
  have hBranches : b.nesting ≤ (State.parallel ⟨branches, next⟩).nesting :=
    nesting_le_of_mem_branches hBranch
  omega

theorem ParallelState.makes_of_plans {plans : List BranchPlan}
    (h : branchPlans (ctx.siteAt limits fuel name) payload p.branches = .ok plans) :
    ∀ call ∈ plans.flatMap BranchPlan.strands, p.Makes limits ctx.requestId fuel payload call := by
  intro call hCall
  obtain ⟨plan, hMem, hStrand⟩ := List.mem_flatMap.mp hCall
  obtain ⟨b, hBranch, hPlan⟩ := exists_branch_of_branchPlans h hMem
  exact ⟨b, hBranch, (Branch.mem_strands_iff (ParallelState.room hRoom hBranch) hPlan).mp hStrand⟩

/-- A parallel state fails for inputs that are not there, or as one of its calls does. -/
theorem ParallelState.fails_of_becomes {err : RunError}
    (hValid : (State.parallel p).validate name = .ok ())
    (h : (p.transition (ctx.siteAt limits fuel name) payload).Becomes env (.ended (.error err))) :
    ∃ cause, err = .failedAt name payload cause ∧
      ((∃ b ∈ p.branches, ∃ m, b.workflow.rootState? = some (.map m) ∧
        m.inputs payload = .error cause) ∨
        p.InputsResolve payload ∧ ∃ call, p.Makes limits ctx.requestId fuel payload call ∧
          call.Becomes env (.ended (.error cause))) := by
  rw [ParallelState.transition] at h
  cases hPlans : branchPlans (ctx.siteAt limits fuel name) payload p.branches with
  | error e =>
    rw [hPlans] at h
    cases Process.becomes_done h
    obtain ⟨b, hBranch, hPlan⟩ := branchPlans_eq_error hPlans
    have hBranchValid := (State.validate_parallel_eq_ok_iff.mp hValid).2.1 b hBranch
    exact ⟨e, rfl, .inl ⟨b, hBranch, Branch.inputs_of_plan_error hBranchValid hPlan⟩⟩
  | ok plans =>
    rw [hPlans] at h
    rcases h.ended_of_fork with ⟨os, hNext⟩ | ⟨e, ⟨call, hCall, hOwn⟩, hNext⟩
    · cases Process.becomes_done hNext
    · cases Process.becomes_done hNext
      have hMakes := ParallelState.makes_of_plans hRoom hPlans call hCall
      exact ⟨e, rfl, .inr ⟨ParallelState.inputsResolve_of_plans hPlans, call, hMakes, hOwn⟩⟩

/-- Where the state evaluates, none of its calls fails. -/
theorem ParallelState.not_fails_of_returns {answers : Answers} {result : Json}
    (hEnv : ∀ w r, (env.respond w r).answer = answers r.activity r.payload)
    (hKeys : (p.branches.map Branch.key).Nodup)
    (h : (p.transition (ctx.siteAt limits fuel name) payload).Returns answers result)
    {call : Process} (hCall : p.Makes limits ctx.requestId fuel payload call) (e : RunError) :
    ¬ call.Becomes env (.ended (.error e)) := by
  obtain ⟨b, hBranch, hMakes⟩ := hCall
  obtain ⟨results, hEach, -⟩ := (ParallelState.returns_iff hKeys).mp h
  obtain ⟨_, -, plan, own, hPlan, hOwn, -⟩ := exists_of_forall₂ hEach hBranch
  have hStrand := (Branch.mem_strands_iff (ParallelState.room hRoom hBranch) hPlan).mpr hMakes
  obtain ⟨_, -, hReturns⟩ := exists_of_forall₂ hOwn hStrand
  have hRegular :=
    Branch.regular_plan (Context.regular_siteAt ctx limits fuel name) hPlan call hStrand
  exact hRegular.not_fails hEnv hReturns e

/-- A parallel state whose calls are followed to their ends is followed to its end. -/
theorem ParallelState.followed
    (hCalls : ∀ call, p.Makes limits ctx.requestId fuel payload call →
      ¬ call.Becomes env .exhausted) :
    ¬ (p.transition (ctx.siteAt limits fuel name) payload).Becomes env .exhausted := by
  intro h
  rw [ParallelState.transition] at h
  cases hPlans : branchPlans (ctx.siteAt limits fuel name) payload p.branches with
  | error e =>
    rw [hPlans] at h
    cases Process.becomes_done h
  | ok plans =>
    rw [hPlans] at h
    rcases h.stops_of_fork with ⟨call, hCall, hStops⟩ | ⟨e | os, hNext⟩
    · exact hCalls call (ParallelState.makes_of_plans hRoom hPlans call hCall) hStops
    · cases Process.becomes_done hNext
    · cases Process.becomes_done hNext

end Rooms

/-- A valid parallel state with enough room succeeds if and only if every branch gives a result on
its own, and it comes to these results under the keys of the branches, in their order. If it fails,
the inputs of a map are not there, or one of the calls has failed so. It ends if all its calls do,
and if one of them fails, it fails. -/
theorem ParallelState.givesBranches (limits : Limits) (ctx : Context) {caller : Caller}
    {answers : Answers} (hValid : (State.parallel p).validate name = .ok ())
    (hAnswers : ∀ world r, ((Environment.mk caller limits.activityTimeout).respond world r).answer =
      answers r.activity r.payload)
    (hDepth : ctx.depth + (State.parallel p).nesting ≤ limits.maxDepth) (requestId : String)
    (payload : Json) (w : World) :
    let env : Environment := ⟨caller, limits.activityTimeout⟩
    let run := fun fuel => p.transition (ctx.siteAt limits fuel name) payload
    (∀ v, (∃ fuel o, (run fuel).Succeeds env w o ∧ o.payload = v) ↔
      ∃ results,
        List.Forall₂ (fun b => b.Gives limits caller answers requestId payload) p.branches results ∧
        v = .obj ((p.branches.map Branch.key).zip results)) ∧
    (∀ fuel steps err w', ((run fuel).start env w).1.settle env steps ((run fuel).start env w).2 =
        some (.error err, w') →
      ∃ cause, err = .failedAt name payload cause ∧
        ((∃ b ∈ p.branches, ∃ m, b.workflow.rootState? = some (.map m) ∧
          m.inputs payload = .error cause) ∨
          p.InputsResolve payload ∧ ∃ call, p.Makes limits ctx.requestId fuel payload call ∧
            call.Becomes env (.ended (.error cause)))) ∧
    (∀ fuel,
      (∀ call, p.Makes limits ctx.requestId fuel payload call → ¬ call.Becomes env .exhausted) →
      ∃ steps result w', ((run fuel).start env w).1.settle env steps ((run fuel).start env w).2 =
        some (result, w') ∧
        ∀ call cause, p.Makes limits ctx.requestId fuel payload call →
          call.Becomes env (.ended (.error cause)) → ∃ err, result = .error err) := by
  intro env run
  have hKeys := (State.validate_parallel_eq_ok_iff.mp hValid).2.2
  have hRooms : ∀ b ∈ p.branches, ctx.depth + b.nesting ≤ limits.maxDepth := fun _ hBranch =>
    ParallelState.room hDepth hBranch
  have hRegular : ∀ fuel, (run fuel).Regular := fun fuel =>
    ParallelState.regular_transition (Context.regular_siteAt ctx limits fuel name) p payload
  refine ⟨fun v => ?_, fun fuel steps err w' hSettle => ?_, fun fuel hCalls => ?_⟩
  · have hRun : ∀ fuel, (∃ o, (run fuel).Succeeds env w o ∧ o.payload = v) ↔
        ∃ results,
          List.Forall₂ (fun b result =>
            b.Evaluates answers (ctx.siteAt limits fuel name) payload result) p.branches results ∧
          v = .obj ((p.branches.map Branch.key).zip results) := fun fuel =>
      ((hRegular fuel).succeeds_with_iff hAnswers).trans (ParallelState.returns_iff hKeys)
    rw [exists_congr hRun]
    constructor
    · rintro ⟨_, results, hEach, rfl⟩
      exact ⟨results, ((List.forall₂_and_left _ _).mpr ⟨hRooms, hEach⟩).imp fun _ _ ⟨hRoom, hOwn⟩ =>
        Branch.gives_of_evaluates hAnswers hRoom hOwn, rfl⟩
    · rintro ⟨results, hEach, rfl⟩
      have hEventually : List.Forall₂ (fun b result => ∃ n, ∀ m ≥ n,
          b.Evaluates answers (ctx.siteAt limits m name) payload result) p.branches results :=
        ((List.forall₂_and_left _ _).mpr ⟨hRooms, hEach⟩).imp fun _ _ ⟨hRoom, hOwn⟩ =>
          Branch.exists_evaluates hAnswers hRoom hOwn
      obtain ⟨n, hn⟩ := exists_bound_forall₂ hEventually
      exact ⟨n, results, hn n (Nat.le_refl n), rfl⟩
  · exact ParallelState.fails_of_becomes hDepth hValid ((Process.Becomes.start w).settle hSettle)
  · obtain ⟨steps, result, w', hSettle⟩ :=
      Process.exists_settle (hRegular fuel) (ParallelState.followed hDepth hCalls) w
    refine ⟨steps, result, w', hSettle, fun call cause hCall hFails => ?_⟩
    cases result with
    | error err => exact ⟨err, rfl⟩
    | ok o =>
      have hReturns :=
        ((hRegular fuel).succeeds_with_iff hAnswers).mp ⟨o, ⟨steps, w', hSettle⟩, rfl⟩
      exact absurd hFails
        (ParallelState.not_fails_of_returns hDepth hAnswers hKeys hReturns hCall cause)

end Parallel

/-- Every activity puts its payload into a list. -/
def wrapping : Answers := fun _ payload => .ok (.arr [payload])

/-- One branch of each form: one step, two steps, and elements with and
without a step after them. -/
def allForms : ParallelState :=
  ⟨[⟨none, ⟨"t", [("t", .task ⟨"f", none⟩)]⟩⟩,
    ⟨some "elements", ⟨"m", [("m", .map ⟨.activity "g", "xs", none, none, none⟩)]⟩⟩,
    ⟨some "nothing", ⟨"m", [("m", .map ⟨.activity "g", "ys", none, none, none⟩)]⟩⟩,
    ⟨some "steps", ⟨"t", [("t", .task ⟨"f", some "u"⟩), ("u", .task ⟨"g", none⟩)]⟩⟩,
    ⟨some "single",
      ⟨"m", [("m", .map ⟨.activity "f", "zs", none, none, some "u"⟩), ("u", .task ⟨"g", none⟩)]⟩⟩],
    none⟩

/-- The elements for the maps: two, none, and one. -/
def allFormsPayload : Json :=
  .obj [("xs", .arr [.bool true, .bool false]), ("ys", .arr []), ("zs", .arr [.null])]

theorem ParallelState.givesBranches_allForms :
    (State.parallel allForms).validate "p" = .ok () ∧
    (∀ world r, ((Environment.mk (wrapping.caller fun _ => 0) none).respond world r).answer =
      wrapping r.activity r.payload) ∧
    (State.parallel allForms).nesting = 1 ∧
    ∃ fuel o,
      (allForms.transition ((Context.top "r").siteAt ⟨1, none, none⟩ fuel "p")
        allFormsPayload).Succeeds
          ⟨wrapping.caller fun _ => 0, none⟩ ⟨0, []⟩ o ∧
      o.payload = .obj [("f", .arr [allFormsPayload]),
        ("elements", .arr [.arr [.bool true], .arr [.bool false]]), ("nothing", .arr []),
        ("steps", .arr [.arr [allFormsPayload]]), ("single", .arr [.arr [.null]])] := by
  have hValid : (State.parallel allForms).validate "p" = .ok () := rfl
  have hAnswers :
      ∀ world r, ((Environment.mk (wrapping.caller fun _ => 0) none).respond world r).answer =
      wrapping r.activity r.payload := fun _ _ => rfl
  have hNesting : (State.parallel allForms).nesting = 1 := by decide
  have hDepth : 0 + (State.parallel allForms).nesting ≤ 1 := by rw [hNesting]
  have hAll :=
    ParallelState.givesBranches ⟨1, none, none⟩ (.top "r") hValid hAnswers hDepth "r"
      allFormsPayload ⟨0, []⟩
  refine ⟨hValid, hAnswers, hNesting, (hAll.1 _).mpr ⟨[.arr [allFormsPayload],
    .ofElements [.arr [.bool true], .arr [.bool false]], .ofElements [],
    .arr [.arr [allFormsPayload]], .ofElements [.arr [.arr [.null]]]], ?_, rfl⟩⟩
  refine .cons ?_ (.cons ?_ (.cons ?_ (.cons ?_ (.cons ?_ .nil))))
  · exact .task rfl ⟨9, _, _, rfl, rfl, rfl⟩
  · exact .map rfl rfl rfl (.cons rfl (.cons rfl .nil))
  · exact .map rfl rfl rfl .nil
  · exact .task rfl ⟨9, _, _, rfl, rfl, rfl⟩
  · exact .map rfl rfl rfl (.cons ⟨9, _, _, rfl, rfl, rfl⟩ .nil)

end Orchestration
