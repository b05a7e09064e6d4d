import Orchestration.Proofs.Run.Concurrency

/-!
# Request ids of runs

A run writes its request id into every call and looks at it nowhere else. So a run under one
id is the run under any other, with the id in its place (`under`): what the caller sees of
it is the id of each call.

* `Process.start_under`, `Strand.resume_under`: letting a process or a strand go on under an id, and
  going on before the id is written into it, come to the same.
* `Workflow.walk_under`: the walk of a context is the walk of any other id under this one.
* `Workflow.run_under`: the same for whole runs.
* `Workflow.run_carriesRequestId`: all calls of a run carry its id, and only a caller that looks at
  it can tell two ids apart.
-/

namespace Orchestration

/-! ## Under a request id -/

/-- The call, made under this request id. -/
def Request.under (id : String) (r : Request) : Request := { r with requestId := id }

mutual

/-- The process, all of whose calls are made under this request id. -/
def Process.under (id : String) : Process → Process
  | .done result => .done result
  | .call r next => .call (r.under id) fun a => (next a).under id
  | .fork width strands next => .fork width (processesUnder id strands) fun r => (next r).under id
  | .exhausted => .exhausted

/-- `Process.under` for each process of a list. -/
def processesUnder (id : String) : List Process → List Process
  | [] => []
  | p :: rest => p.under id :: processesUnder id rest

end

mutual

/-- The strand, all of whose later calls are made under this request id. -/
def Strand.under (id : String) : Strand → Strand
  | .ended result => .ended result
  | .waiting due ticket answer next => .waiting due ticket answer fun a => (next a).under id
  | .together strands next => .together (strandsUnder id strands) fun r => (next r).under id
  | .window limit delivered active queue next =>
    .window limit delivered (strandsUnder id active) (processesUnder id queue) fun r =>
      (next r).under id
  | .exhausted => .exhausted

/-- `Strand.under` for each strand of a list. -/
def strandsUnder (id : String) : List Strand → List Strand
  | [] => []
  | s :: rest => s.under id :: strandsUnder id rest

end

/-- The world in which all calls so far were made under this request id. -/
def World.under (id : String) (w : World) : World :=
  { w with past := w.past.map (Request.under id) }

/-- What the caller answers if it is told that all calls are made under this request id. -/
def Caller.under (id : String) (caller : Caller) : Caller := fun past r =>
  caller (past.map (Request.under id)) (r.under id)

def Environment.under (id : String) (env : Environment) : Environment :=
  { env with caller := env.caller.under id }

/-- The execution, under this request id. -/
def Execution.under (id : String) (e : Execution) : Execution :=
  ⟨id, e.result, e.calls.map (Request.under id), e.elapsed⟩

variable {id : String} {env : Environment}

@[simp] theorem processesUnder_eq_map (ps : List Process) :
    processesUnder id ps = ps.map (Process.under id) := by
  induction ps with
  | nil => rfl
  | cons p rest ih => rw [processesUnder, ih, List.map_cons]

@[simp] theorem strandsUnder_eq_map (ss : List Strand) :
    strandsUnder id ss = ss.map (Strand.under id) := by
  induction ss with
  | nil => rfl
  | cons s rest ih => rw [strandsUnder, ih, List.map_cons]

theorem Environment.respond_under (w : World) (r : Request) :
    env.respond (w.under id) (r.under id) = (env.under id).respond w r := rfl

/-! ## Progress -/

/-- How far strands have come, under this request id; `f` is what the id does to their state. -/
def Progress.under {α : Type} (id : String) (f : α → α) : Progress α × World → Progress α × World
  | (.failed e, w) => (.failed e, w.under id)
  | (.going a, w) => (.going (f a), w.under id)
  | (.exhausted, w) => (.exhausted, w.under id)

/-- A strand and the world in which it waits, under this request id. -/
def Strand.underIn (id : String) (r : Strand × World) : Strand × World :=
  (r.1.under id, r.2.under id)

/-- The strands of a window and what they delivered, under this request id. -/
def placesUnder (id : String) (s : List Outcome × List Strand) : List Outcome × List Strand :=
  (s.1, s.2.map (Strand.under id))

def WindowState.under (id : String) (s : WindowState) : WindowState :=
  ⟨s.delivered, s.active.map (Strand.under id), s.queue.map (Process.under id)⟩

theorem Progress.under_andThen {α β : Type} {f : α → α} {g : β → β} {r r' : Progress α × World}
    {next next' : α → World → Progress β × World} (hr : r' = Progress.under id f r)
    (hNext : ∀ a w, next' (f a) (w.under id) = Progress.under id g (next a w)) :
    Progress.andThen r' next' = Progress.under id g (Progress.andThen r next) := by
  subst hr
  obtain ⟨e | a | _, w⟩ := r
  · rfl
  · exact hNext a w
  · rfl

theorem headOf_under (r : Strand × World) :
    headOf (Strand.underIn id r) = Progress.under id (Strand.under id) (headOf r) := by
  obtain ⟨s, w⟩ := r
  rcases s with (e | o) | _ | _ | _ | _ <;> rfl

theorem outcomes?_under (ss : List Strand) :
    outcomes? (ss.map (Strand.under id)) = outcomes? ss := by
  induction ss with
  | nil => rfl
  | cons s rest ih =>
    rcases s with (e | o) | _ | _ | _ | _ <;> try rfl
    exact congrArg (Option.map _) ih

theorem deliver_under (delivered : List Outcome) (active : List Strand) (w : World) :
    (deliver delivered (active.map (Strand.under id)), w.under id) =
      Progress.under id (placesUnder id) (deliver delivered active, w) := by
  induction active generalizing delivered with
  | nil => rfl
  | cons s rest ih =>
    rcases s with (e | o) | _ | _ | _ | _ <;> try rfl
    exact ih (o :: delivered)

/-- A strand takes its place in a window, be it before the id is written or after. -/
theorem settleIn_under {placed placed' : Strand → List Strand} (delivered : List Outcome)
    (r : Strand × World)
    (hPlaced : ∀ s : Strand, placed' (s.under id) = (placed s).map (Strand.under id)) :
    settleIn delivered placed' (Strand.underIn id r) =
      Progress.under id (placesUnder id) (settleIn delivered placed r) := by
  obtain ⟨s, w⟩ := r
  have hDeliver : (deliver delivered (placed' (s.under id)), w.under id) =
      Progress.under id (placesUnder id) (deliver delivered (placed s), w) := by
    rw [hPlaced]
    exact deliver_under delivered (placed s) w
  cases s with
  | exhausted => rfl
  | _ => exact hDeliver

/-- Strands that go on one after the other. -/
theorem headOf_andThen_under {r r' : Strand × World}
    {later later' : World → Progress (List Strand) × World} (hr : r' = Strand.underIn id r)
    (hLater : ∀ w, later' (w.under id) = Progress.under id (List.map (Strand.under id)) (later w)) :
    (Progress.andThen (headOf r') fun s w =>
      Progress.andThen (later' w) fun ss w => (.going (s :: ss), w)) =
      Progress.under id (List.map (Strand.under id)) (Progress.andThen (headOf r) fun s w =>
        Progress.andThen (later w) fun ss w => (.going (s :: ss), w)) := by
  subst hr
  refine Progress.under_andThen (headOf_under r) fun s w => ?_
  exact Progress.under_andThen (hLater w) fun ss w => rfl

/-! ## Starting -/

section Join

variable {next : Except RunError (List Outcome) → Process}

theorem joinAll_under
    (hNext : ∀ r w, ((next r).under id).start env (w.under id) =
      Strand.underIn id ((next r).start (env.under id) w))
    {r r' : Progress (List Strand) × World}
    (hr : r' = Progress.under id (List.map (Strand.under id)) r) :
    joinAll env (fun r => (next r).under id) r' =
      Strand.underIn id (joinAll (env.under id) next r) := by
  subst hr
  obtain ⟨e | ss | _, w⟩ := r
  · exact hNext _ w
  · dsimp only [Progress.under, joinAll]
    rw [outcomes?_under]
    cases outcomes? ss with
    | some os => exact hNext _ w
    | none =>
      dsimp only
      rw [Strand.underIn, Strand.under, strandsUnder_eq_map]
  · rfl

theorem joinWindow_under (limit : Nat)
    (hNext : ∀ r w, ((next r).under id).start env (w.under id) =
      Strand.underIn id ((next r).start (env.under id) w))
    {r r' : Progress WindowState × World} (hr : r' = Progress.under id (WindowState.under id) r) :
    joinWindow env limit (fun r => (next r).under id) r' =
      Strand.underIn id (joinWindow (env.under id) limit next r) := by
  subst hr
  obtain ⟨e | ⟨delivered, active, queue⟩ | _, w⟩ := r
  · exact hNext _ w
  · dsimp only [Progress.under, joinWindow, WindowState.under]
    rw [List.isEmpty_map, List.isEmpty_map]
    split
    · exact hNext _ w
    · rw [Strand.underIn, Strand.under, strandsUnder_eq_map, processesUnder_eq_map]
  · rfl

end Join

mutual

/-- A process that starts under an id comes as far as the process itself, against a
caller that sees the id. -/
theorem Process.start_under : ∀ (p : Process) (w : World),
    (p.under id).start env (w.under id) = Strand.underIn id (p.start (env.under id) w)
  | .done result, w => by
    rw [Process.under, Process.start, Process.start, Strand.underIn, Strand.under]
  | .exhausted, w => by
    rw [Process.under, Process.start, Process.start, Strand.underIn, Strand.under]
  | .call r next, w => by
    have hPast : ({ w.under id with past := r.under id :: (w.under id).past } : World) =
        World.under id { w with past := r :: w.past } := rfl
    rw [Process.under, Process.start, Process.start, Environment.respond_under, hPast]
    split
    · exact Process.start_under (next _) _
    · rw [Strand.underIn, Strand.under, World.under, List.length_map]
  | .fork .all strands next, w => by
    rw [Process.under, Process.start_fork_all, Process.start_fork_all]
    exact joinAll_under (fun r w => Process.start_under (next r) w) (startAll_under strands w)
  | .fork (.window limit) strands next, w => by
    rw [Process.under, Process.start_fork_window, Process.start_fork_window]
    exact joinWindow_under limit (fun r w => Process.start_under (next r) w)
      (fill_under limit strands [] [] w)

theorem startAll_under : ∀ (ps : List Process) (w : World),
    startAll env (processesUnder id ps) (w.under id) =
      Progress.under id (List.map (Strand.under id)) (startAll (env.under id) ps w)
  | [], w => by
    rw [processesUnder, startAll, startAll]
    rfl
  | p :: rest, w => by
    rw [processesUnder, startAll_cons, startAll_cons]
    exact headOf_andThen_under (Process.start_under p w) (startAll_under rest)

theorem fill_under (limit : Nat) :
    ∀ (queue : List Process) (delivered : List Outcome) (active : List Strand) (w : World),
    fill env limit delivered (active.map (Strand.under id)) (processesUnder id queue) (w.under id) =
      Progress.under id (WindowState.under id) (fill (env.under id) limit delivered active queue w)
  | [], delivered, active, w => by
    rw [processesUnder, fill, fill]
    rfl
  | p :: rest, delivered, active, w => by
    have hRest (s : List Outcome × List Strand) (w : World) :
        fill env limit (placesUnder id s).1 (placesUnder id s).2 (processesUnder id rest)
          (w.under id) =
          Progress.under id (WindowState.under id) (fill (env.under id) limit s.1 s.2 rest w) :=
      fill_under limit rest s.1 s.2 w
    rw [processesUnder, fill_cons, fill_cons, List.length_map]
    split
    · refine Progress.under_andThen ?_ hRest
      rw [Process.start_under p w]
      exact settleIn_under delivered _ fun s => by rw [List.map_append, List.map_singleton]
    · rw [processesUnder_eq_map]
      rfl

end

/-! ## Going on -/

mutual

theorem Strand.nextDue_under : ∀ s : Strand, (s.under id).nextDue = s.nextDue
  | .ended _ | .exhausted | .waiting _ _ _ _ => rfl
  | .together strands _ => by
    rw [Strand.under, Strand.nextDue, Strand.nextDue]
    exact nextDueOf_under strands
  | .window _ _ active _ _ => by
    rw [Strand.under, Strand.nextDue, Strand.nextDue]
    exact nextDueOf_under active

theorem nextDueOf_under : ∀ ss : List Strand, nextDueOf (strandsUnder id ss) = nextDueOf ss
  | [] => rfl
  | s :: rest => by
    rw [strandsUnder, nextDueOf, nextDueOf, Strand.nextDue_under s, nextDueOf_under rest]

end

mutual

theorem Strand.firstTicket_under (now : Nat) :
    ∀ s : Strand, (s.under id).firstTicket now = s.firstTicket now
  | .ended _ | .exhausted | .waiting _ _ _ _ => rfl
  | .together strands _ => by
    rw [Strand.under, Strand.firstTicket, Strand.firstTicket]
    exact firstTicketOf_under now strands
  | .window _ _ active _ _ => by
    rw [Strand.under, Strand.firstTicket, Strand.firstTicket]
    exact firstTicketOf_under now active

theorem firstTicketOf_under (now : Nat) : ∀ ss : List Strand,
    firstTicketOf now (strandsUnder id ss) = firstTicketOf now ss
  | [] => rfl
  | s :: rest => by
    rw [strandsUnder, firstTicketOf, firstTicketOf, Strand.firstTicket_under now s,
      firstTicketOf_under now rest]

end

/-- A wakeup of a strand, and that of the same strand under an id. -/
structure Wakeup.IsUnder (id : String) (wake wake' : Wakeup) : Prop where
  ticket : wake'.ticket = wake.ticket
  place : wake'.place = wake.place
  go : ∀ w : World, wake'.go (w.under id) = Strand.underIn id (wake.go w)

theorem Wakeup.sort_under {ws ws' : List Wakeup} (h : List.Forall₂ (Wakeup.IsUnder id) ws ws') :
    List.Forall₂ (Wakeup.IsUnder id) (Wakeup.sort ws) (Wakeup.sort ws') := by
  refine forall₂_mergeSort h fun a a' b b' ha hb => ?_
  rw [ha.ticket, hb.ticket]

theorem wakeups_under (now place : Nat) {active : List Strand}
    (hGo : ∀ s ∈ active, ∀ w : World, (s.under id).resume env (w.under id) =
      Strand.underIn id (s.resume (env.under id) w)) :
    List.Forall₂ (Wakeup.IsUnder id) (wakeups (env.under id) now place active)
      (wakeups env now place (active.map (Strand.under id))) := by
  induction active generalizing place with
  | nil => exact .nil
  | cons s rest ih =>
    have hRest := ih (place + 1) fun t ht => hGo t (List.mem_cons_of_mem _ ht)
    rw [List.map_cons, wakeups, wakeups, Strand.firstTicket_under]
    cases s.firstTicket now with
    | none => exact hRest
    | some ticket => exact .cons ⟨rfl, rfl, hGo s List.mem_cons_self⟩ hRest

theorem runWakeups_under (before : Nat) {ws ws' : List Wakeup}
    (h : List.Forall₂ (Wakeup.IsUnder id) ws ws') :
    ∀ (delivered : List Outcome) (active : List Strand) (w : World),
      runWakeups before delivered (active.map (Strand.under id)) ws' (w.under id) =
        Progress.under id (placesUnder id) (runWakeups before delivered active ws w) := by
  induction h with
  | nil =>
    intro delivered active w
    rfl
  | @cons wake wake' rest rest' hHead _ ih =>
    intro delivered active w
    rw [runWakeups_cons, runWakeups_cons, hHead.go, hHead.place]
    refine Progress.under_andThen (settleIn_under delivered _ fun s => ?_) fun s w => ih s.1 s.2 w
    rw [List.map_set]

mutual

/-- A strand that goes on under an id comes as far as the strand itself, against a
caller that sees the id. -/
theorem Strand.resume_under : ∀ (s : Strand) (w : World),
    (s.under id).resume env (w.under id) = Strand.underIn id (s.resume (env.under id) w)
  | .ended result, w => by
    rw [Strand.under, Strand.resume, Strand.resume, Strand.underIn, Strand.under]
  | .exhausted, w => by
    rw [Strand.under, Strand.resume, Strand.resume, Strand.underIn, Strand.under]
  | .waiting due ticket answer next, w => by
    have hNow : (w.under id).now = w.now := rfl
    rw [Strand.under, Strand.resume, Strand.resume, hNow]
    split
    · exact Process.start_under _ w
    · rw [Strand.underIn, Strand.under]
  | .together strands next, w => by
    rw [Strand.under, Strand.resume_together, Strand.resume_together]
    exact joinAll_under (fun r w => Process.start_under (next r) w) (resumeAll_under strands w)
  | .window limit delivered active queue next, w => by
    have hNow : (w.under id).now = w.now := rfl
    have hWake :=
      Wakeup.sort_under (wakeups_under w.now 0 fun s hs => activeResume_under active s hs)
    rw [Strand.under, Strand.resume_window, Strand.resume_window, strandsUnder_eq_map, hNow]
    refine joinWindow_under limit (fun r w => Process.start_under (next r) w) ?_
    refine Progress.under_andThen (runWakeups_under delivered.length hWake delivered active w)
      fun s w => ?_
    exact fill_under limit queue s.1 s.2 w

theorem resumeAll_under : ∀ (ss : List Strand) (w : World),
    resumeAll env (strandsUnder id ss) (w.under id) =
      Progress.under id (List.map (Strand.under id)) (resumeAll (env.under id) ss w)
  | [], w => by
    rw [strandsUnder, resumeAll, resumeAll]
    rfl
  | s :: rest, w => by
    rw [strandsUnder, resumeAll_cons, resumeAll_cons]
    exact headOf_andThen_under (Strand.resume_under s w) (resumeAll_under rest)

/-- `Strand.resume_under` for any of the strands of a window. -/
theorem activeResume_under : ∀ (active : List Strand) (s : Strand), s ∈ active → ∀ w : World,
    (s.under id).resume env (w.under id) = Strand.underIn id (s.resume (env.under id) w)
  | [], s, hs, w => by cases hs
  | t :: rest, s, hs, w => by
    rcases List.mem_cons.mp hs with hEq | hs
    · rw [hEq]
      exact Strand.resume_under t w
    · exact activeResume_under rest s hs w

end

/-! ## Transitions -/

theorem Process.under_andThen {f g : Outcome → Process} (h : ∀ o, (f o).under id = g o) :
    ∀ p : Process, (p.andThen f).under id = (p.under id).andThen g
  | .done (.ok o) => h o
  | .done (.error e) => by rw [Process.andThen, Process.under, Process.andThen]
  | .exhausted => by rw [Process.andThen, Process.under, Process.andThen]
  | .call r next => by
    rw [Process.andThen, Process.under, Process.under, Process.andThen]
    exact congrArg _ (funext fun a => Process.under_andThen h (next a))
  | .fork width strands next => by
    rw [Process.andThen, Process.under, Process.under, Process.andThen]
    exact congrArg _ (funext fun r => Process.under_andThen h (next r))

/-- Where a state runs, under this request id. -/
def Site.under (id : String) (site : Site) : Site :=
  ⟨site.name, id, fun w input => (site.enter w input).under id⟩

section Transition

variable {site : Site} {limits : Limits}

theorem Process.under_value (payload : Json) :
    (Process.value payload).under id = .value payload := by
  rw [Process.value, Process.under]

theorem Process.under_fail (e : RunError) : (Process.fail e).under id = .fail e := by
  rw [Process.fail, Process.under]

theorem Site.under_fail (payload : Json) (e : RunError) :
    (site.fail payload e).under id = (site.under id).fail payload e :=
  Process.under_fail _

theorem Site.under_dispatch (activity : String) (payload : Json) :
    (site.dispatch activity payload).under id = (site.under id).dispatch activity payload := by
  rw [Site.dispatch, Process.single, Process.under, Site.dispatch, Process.single]
  refine congrArg _ (funext fun a => ?_)
  cases a with
  | error e => exact Process.under_fail _
  | ok v => exact Process.under_value v

theorem Site.under_repeatCalls (activity : String) (n : Nat) (payload : Json) :
    (site.repeatCalls activity n payload).under id =
      (site.under id).repeatCalls activity n payload := by
  induction n generalizing payload with
  | zero => exact Process.under_value payload
  | succ n ih =>
    rw [Site.repeatCalls, Process.under, Site.repeatCalls]
    refine congrArg _ (funext fun a => ?_)
    cases a with
    | error e => exact Site.under_fail payload _
    | ok v => exact ih v

theorem Site.under_loopCalls (activity : String) (payload : Json) (elements : List Json) :
    (site.loopCalls activity payload elements).under id =
      (site.under id).loopCalls activity payload elements := by
  induction elements with
  | nil => exact Process.under_value payload
  | cons element rest ih =>
    rw [Site.loopCalls, Process.under, Site.loopCalls]
    refine congrArg _ (funext fun a => ?_)
    cases a with
    | error e => exact Site.under_fail payload _
    | ok v => exact ih

theorem MapBody.under_process (body : MapBody) (input : Json) :
    (body.process site input).under id = body.process (site.under id) input := by
  cases body with
  | activity name => exact Site.under_dispatch name input
  | workflow w => rfl

theorem MapState.under_transition (m : MapState) (payload : Json) :
    (m.transition site limits payload).under id = m.transition (site.under id) limits payload := by
  rw [MapState.transition, MapState.transition]
  cases m.inputs payload with
  | error e => exact Site.under_fail payload e
  | ok inputs =>
    dsimp only
    rw [Process.under, processesUnder_eq_map, List.map_map]
    congr 1
    · exact List.map_congr_left fun input _ => MapBody.under_process m.body input
    · funext r
      cases r with
      | error e => exact Site.under_fail payload e
      | ok os =>
        dsimp only
        split
        · exact Process.under_value _
        · exact Site.under_fail payload _

/-- The strands of a branch, under this request id. -/
def BranchPlan.under (id : String) (plan : BranchPlan) : BranchPlan :=
  ⟨plan.key, plan.isMap, plan.strands.map (Process.under id)⟩

theorem Branch.under_plan (b : Branch) (payload : Json) :
    b.plan (site.under id) payload = (b.plan site payload).map (BranchPlan.under id) := by
  unfold Branch.plan
  split
  · rename_i t _
    refine congrArg Except.ok ?_
    cases t.next with
    | none => rw [BranchPlan.under, List.map_singleton, Site.under_dispatch]
    | some next => rfl
  · rename_i m _
    cases m.body with
    | workflow w => rfl
    | activity name =>
      dsimp only
      cases m.inputs payload with
      | error e => rfl
      | ok inputs =>
        refine congrArg Except.ok ?_
        rw [BranchPlan.under, List.map_map]
        congr 1
        refine List.map_congr_left fun input _ => ?_
        cases b.elementWorkflow with
        | none => exact (Site.under_dispatch name input).symm
        | some w => rfl
  · rfl
  · rfl

theorem branchPlans_under (branches : List Branch) (payload : Json) :
    branchPlans (site.under id) payload branches =
      (branchPlans site payload branches).map (List.map (BranchPlan.under id)) := by
  induction branches with
  | nil => rfl
  | cons b rest ih =>
    rw [branchPlans, branchPlans, Branch.under_plan, ih]
    cases b.plan site payload with
    | error e => rfl
    | ok plan => cases branchPlans site payload rest <;> rfl

theorem flatMap_strands_under (plans : List BranchPlan) :
    (plans.map (BranchPlan.under id)).flatMap BranchPlan.strands =
      (plans.flatMap BranchPlan.strands).map (Process.under id) := by
  rw [List.flatMap_map, List.map_flatMap]
  rfl

theorem mergeBranches_under (plans : List BranchPlan) (merged : Entries Json)
    (results : List Json) :
    mergeBranches merged (plans.map (BranchPlan.under id)) results =
      mergeBranches merged plans results := by
  induction plans generalizing merged results with
  | nil => rfl
  | cons plan rest ih =>
    rw [List.map_cons, mergeBranches, mergeBranches]
    simp only [BranchPlan.under, List.length_map, ih]
    rfl

theorem ParallelState.under_transition (p : ParallelState) (payload : Json) :
    (p.transition site payload).under id = p.transition (site.under id) payload := by
  rw [ParallelState.transition, ParallelState.transition, branchPlans_under]
  cases branchPlans site payload p.branches with
  | error e => exact Site.under_fail payload e
  | ok plans =>
    dsimp only [Except.map]
    rw [Process.under, processesUnder_eq_map, flatMap_strands_under, List.length_map]
    refine congrArg _ (funext fun r => ?_)
    cases r with
    | error e => exact Site.under_fail payload e
    | ok os =>
      dsimp only
      rw [mergeBranches_under]
      exact Process.under_value _

theorem State.under_transition (s : State) (payload : Json) :
    (s.transition site limits payload).under id = s.transition (site.under id) limits payload := by
  cases s with
  | task t => exact Site.under_repeatCalls t.activity 1 payload
  | «switch» s => exact Process.under_value payload
  | map m => exact MapState.under_transition m payload
  | «repeat» r => exact Site.under_repeatCalls r.activity r.count payload
  | loop l =>
    rw [State.transition, State.transition]
    split
    · exact Site.under_fail payload _
    · exact Site.under_loopCalls l.activity payload _
  | parallel p => exact ParallelState.under_transition p payload

end Transition

/-! ## Walks and runs -/

def Context.under (id : String) (ctx : Context) : Context := { ctx with requestId := id }

theorem Workflow.walk_under (limits : Limits) (fuel : Nat) :
    ∀ (ctx : Context) (w : Workflow) (name : String) (payload : Json) (visited : List String),
      (w.walk limits fuel ctx name payload visited).under id =
        w.walk limits fuel (ctx.under id) name payload visited := by
  induction fuel with
  | zero =>
    intro ctx w name payload visited
    rw [Workflow.walk, Process.under, Workflow.walk]
  | succ fuel ih =>
    intro ctx w name payload visited
    have hSite :
        (ctx.siteAt limits fuel name).under id = (ctx.under id).siteAt limits fuel name := by
      refine congrArg _ (funext fun inner => funext fun input => ?_)
      change (ctx.enter limits fuel inner input).under id =
        (ctx.under id).enter limits fuel inner input
      unfold Context.enter Context.nested?
      by_cases hLess : ctx.depth < limits.maxDepth
      · have hLess' : (ctx.under id).depth < limits.maxDepth := hLess
        rw [if_pos hLess, if_pos hLess']
        exact ih _ inner inner.root input []
      · have hLess' : ¬ (ctx.under id).depth < limits.maxDepth := hLess
        rw [if_neg hLess, if_neg hLess']
        exact Process.under_fail _
    rw [Workflow.walk_succ, Workflow.walk_succ]
    cases w.state? name with
    | none => exact Process.under_fail _
    | some s =>
      dsimp only
      cases s.successor payload with
      | error e =>
        rw [← hSite]
        exact Site.under_fail payload e
      | ok next =>
        dsimp only
        rw [← hSite, ← State.under_transition]
        refine Process.under_andThen (fun o => ?_) _
        cases next with
        | none => rw [Process.under]
        | some next => exact ih ctx w next o.payload _

theorem Workflow.process_under (limits : Limits) (fuel : Nat) (requestId requestId' : String)
    (w : Workflow) (payload : Json) : (w.process limits fuel requestId payload).under requestId' =
      w.process limits fuel requestId' payload :=
  Workflow.walk_under limits fuel _ w w.root payload []

theorem Strand.settle_under (fuel : Nat) : ∀ (s : Strand) (w : World),
    (s.under id).settle env fuel (w.under id) =
      (s.settle (env.under id) fuel w).map fun (result, w) => (result, w.under id) := by
  induction fuel with
  | zero =>
    intro s w
    rfl
  | succ fuel ih =>
    intro s w
    by_cases hEnded : ∃ result, s = .ended result
    · obtain ⟨result, rfl⟩ := hEnded
      rfl
    · have hNot : ∀ result, s ≠ .ended result := fun result h => hEnded ⟨result, h⟩
      have hNotUnder : ∀ result, s.under id ≠ .ended result := by
        cases s with
        | ended result => exact absurd rfl (hNot result)
        | _ => simp [Strand.under]
      rw [Strand.settle_succ_of_ne_ended hNot, Strand.settle_succ_of_ne_ended hNotUnder,
        Strand.nextDue_under, Option.map_bind]
      congr 1
      funext due
      have hStep : (s.under id).resume env { w.under id with now := due } =
          Strand.underIn id (s.resume (env.under id) { w with now := due }) :=
        Strand.resume_under s { w with now := due }
      rw [hStep]
      exact ih _ _

/-- A run under an id is the run under any other, against a caller that is shown the first, with the
first in the place of the other. -/
theorem Workflow.run_under (limits : Limits) (caller : Caller) (fuel : Nat) (id requestId : String)
    (w : Workflow) (payload : Json) :
    w.run limits caller fuel id payload =
      (w.run limits (caller.under id) fuel requestId payload).map (Execution.under id) := by
  have hStart : (w.process limits fuel id payload).start ⟨caller, limits.activityTimeout⟩ ⟨0, []⟩ =
      Strand.underIn id ((w.process limits fuel requestId payload).start
        ⟨caller.under id, limits.activityTimeout⟩ ⟨0, []⟩) := by
    rw [← Workflow.process_under limits fuel requestId id]
    exact Process.start_under _ ⟨0, []⟩
  unfold Workflow.run
  dsimp only
  rw [hStart, Strand.underIn, Strand.settle_under, Option.map_map, Option.map_map]
  congr 1
  funext ⟨result, world⟩
  simp [Execution.under, World.under]

/-! ## Request ids -/

/-- What the caller answers, and after how long, does not hang on the request ids of the calls. -/
def Caller.IgnoresRequestId (caller : Caller) : Prop :=
  ∀ id past r, caller (past.map (Request.under id)) (r.under id) = caller past r

theorem Caller.IgnoresRequestId.under_eq {caller : Caller} (h : caller.IgnoresRequestId)
    (id : String) :
    caller.under id = caller := by
  funext past r
  exact h id past r

/-- At every moment of a run, all that is under way and all that was called
is under the run's id. -/
theorem Workflow.Moment.exists_under {w : Workflow} {limits : Limits} {caller : Caller} {fuel : Nat}
    {requestId : String} {payload : Json} {s : Strand} {world : World}
    (h : w.Moment limits caller fuel requestId payload s world) :
    ∃ s' world', (s, world) = Strand.underIn requestId (s', world') := by
  induction h with
  | start hStart =>
    rw [← hStart, ← Workflow.process_under limits fuel "" requestId]
    exact ⟨_, _, Process.start_under _ ⟨0, []⟩⟩
  | @later _ _ _ _ due _ _ hResume ih =>
    obtain ⟨s', world', hUnder⟩ := ih
    obtain ⟨rfl, rfl⟩ := Prod.mk.inj hUnder
    rw [← hResume]
    exact ⟨_, _, Strand.resume_under s' { world' with now := due }⟩

theorem World.requestId_of_mem_past {w : World} {r : Request} (h : r ∈ (w.under id).past) :
    r.requestId = id := by
  obtain ⟨r', -, rfl⟩ := List.mem_map.mp h
  rfl

/-- All calls of a run carry its request id, at every moment and at every depth of nesting, also if
the run never ends. If the caller does not look at request ids, the run under another id is the same
run with that id in its place: it ends in the same way, with the same calls in the same order and
after the same time, or it does not end either. -/
theorem Workflow.run_carriesRequestId (w : Workflow) (limits : Limits) (caller : Caller)
    (fuel : Nat) (requestId : String) (payload : Json) :
    (∀ s world, w.Moment limits caller fuel requestId payload s world →
      ∀ r ∈ world.past, r.requestId = requestId) ∧
    (∀ e, w.run limits caller fuel requestId payload = some e →
      e.requestId = requestId ∧ ∀ r ∈ e.calls, r.requestId = requestId) ∧
    (caller.IgnoresRequestId → ∀ requestId', w.run limits caller fuel requestId' payload =
      (w.run limits caller fuel requestId payload).map (Execution.under requestId')) := by
  refine ⟨fun s world hMoment r hr => ?_, fun e hRun => ?_, fun hIgnores requestId' => ?_⟩
  · obtain ⟨s', world', hUnder⟩ := hMoment.exists_under
    obtain ⟨-, rfl⟩ := Prod.mk.inj hUnder
    exact World.requestId_of_mem_past hr
  · rw [Workflow.run_under limits caller fuel requestId ""] at hRun
    obtain ⟨e', -, rfl⟩ := Option.map_eq_some_iff.mp hRun
    refine ⟨rfl, fun r hr => ?_⟩
    obtain ⟨r', -, rfl⟩ := List.mem_map.mp hr
    rfl
  · rw [Workflow.run_under limits caller fuel requestId' requestId, hIgnores.under_eq]

/-- Maps a parallel state over `xs`, then loops over the results and repeats a call. -/
def everyPath : Workflow :=
  let both : Workflow := ⟨"p", [("p", .parallel ⟨[⟨some "a", ⟨"s", [("s", .task ⟨"f", some "t"⟩),
    ("t", .task ⟨"g", none⟩)]⟩⟩, ⟨some "b", ⟨"t", [("t", .task ⟨"g", none⟩)]⟩⟩], none⟩)]⟩
  ⟨"m",
    [("m", .map ⟨.workflow both, "xs", none, none, some "l"⟩), ("l", .loop ⟨"h", "xs", some "r"⟩),
      ("r", .repeat ⟨"f", 2, none⟩)]⟩

/-- Answers each call with its payload, the later the more calls were made before. -/
def slowingCaller : Caller := fun past r => ⟨.ok r.payload, past.length⟩

/-- Two elements for the map. -/
def everyPathPayload : Json := .obj [("xs", .arr [.null, .bool true])]

/-- Ten calls under the id `a`, and the same run under the id `b`. -/
theorem Workflow.run_carriesRequestId_everyPath :
    slowingCaller.IgnoresRequestId ∧
      ∃ e : Execution,
        everyPath.run ⟨2, none, none⟩ slowingCaller 20 "a" everyPathPayload = some e ∧
        (e.calls.length, e.elapsed) = (10, 38) ∧ (∀ r ∈ e.calls, r.requestId = "a") ∧
        everyPath.run ⟨2, none, none⟩ slowingCaller 20 "b" everyPathPayload =
          some (e.under "b") := by
  have hIgnores : slowingCaller.IgnoresRequestId := by
    intro id past r
    simp [slowingCaller, Request.under]
  have hRun : (everyPath.run ⟨2, none, none⟩ slowingCaller 20 "a" everyPathPayload).map
      (fun e => (e.calls.length, e.elapsed)) = some (10, 38) := by decide +kernel
  obtain ⟨e, hRun, hCalls⟩ := Option.map_eq_some_iff.mp hRun
  obtain ⟨-, hCarries, hAlike⟩ :=
    Workflow.run_carriesRequestId everyPath ⟨2, none, none⟩ slowingCaller 20 "a" everyPathPayload
  refine ⟨hIgnores, e, hRun, hCalls, (hCarries e hRun).2, ?_⟩
  rw [hAlike hIgnores "b", hRun]
  rfl

end Orchestration
