import Orchestration.Proofs.StepProgram.Histories
import Orchestration.Proofs.Target.Names

/-!
# How the encoding of a valid workflow fails

The encodings look at the roots of branches for themselves, and they encode workflows that no one
has validated: those that branches derive for their elements. For a valid workflow they nevertheless
fail in a few ways only, at every level.

* `CompileError.Excusable`: the failures that are left. An activity without an address is called at
  some level, the names for two fragments clash at some level (`Workflow.Clash`), or, for state
  machines, a case compares with a value that has no comparator.
* `statesFragments_failsWith`, `statesSteps_failsWith`: the encoding of the states of a level fails
  in these ways, and so do the encodings of what is written in them.
* `Compiler.fails_excusably`: compilers, also with what they keep from earlier calls.
-/

namespace Orchestration

/-! ## States and activities of all levels -/

namespace Workflow

/-- The state is one of a level of the workflow. -/
def ReachesState (w : Workflow) (name : String) (s : State) : Prop :=
  ∃ v, w.Reaches v ∧ (name, s) ∈ v.states

theorem ReachesState.enter {w v : Workflow} {name : String} {s : State} (h : w.ReachesState name s)
    (hEnters : s.Enters v) : w.Reaches v := by
  obtain ⟨u, hReaches, hState⟩ := h
  exact .enter hReaches hState hEnters

theorem Reaches.state {w v : Workflow} (h : w.Reaches v) {e : String × State}
    (hState : e ∈ v.states) :
    w.ReachesState e.1 e.2 :=
  ⟨v, h, hState⟩

theorem ReachesState.of_reaches {w v : Workflow} {name : String} {s : State}
    (h : v.ReachesState name s) (hReaches : w.Reaches v) : w.ReachesState name s := by
  obtain ⟨u, hInner, hState⟩ := h
  exact ⟨u, hReaches.trans hInner, hState⟩

theorem ReachesState.validate {w : Workflow} {name : String} {s : State} (h : w.ReachesState name s)
    (hValid : w.validate = .ok ()) : s.validate name = .ok () := by
  obtain ⟨v, hReaches, hState⟩ := h
  exact ((Workflow.validate_eq_ok_iff.mp (hReaches.validate hValid)).2 name s hState).2

end Workflow

/-- The state itself calls the activity; what is written in the state may call others. -/
inductive State.Calls : State → String → Prop
  | task (t : TaskState) : Calls (.task t) t.activity
  | repeat (r : RepeatState) : Calls (.repeat r) r.activity
  | loop (l : LoopState) : Calls (.loop l) l.activity
  | map {m : MapState} {activity : String} (hBody : m.body = .activity activity) :
    Calls (.map m) activity

/-- The activity is called by a state of a level of the workflow. -/
def Workflow.Calls (w : Workflow) (activity : String) : Prop :=
  ∃ name s, w.ReachesState name s ∧ s.Calls activity

/-- No comparator of state machines fits the case: numbers and texts can be compared in any way, the
other single values only for being equal, arrays and objects not at all. -/
def Case.Incomparable (c : Case) : Prop :=
  match c.val with
  | .int _ | .float _ | .str _ => False
  | .null | .bool _ => c.op ≠ .equals
  | .arr _ | .obj _ => True

/-! ## Failures that are left -/

/-- A failure that a valid workflow may have on its way to a target. -/
inductive CompileError.Excusable (resolver : Resolver) (target : Target) (w : Workflow) :
    CompileError → Prop
  | unresolved {activity : String} (hCalls : w.Calls activity)
    (hNone : resolver.resolve activity = none) :
    Excusable resolver target w (.unresolved activity)
  | nameTaken {name taken : String} (hClash : w.Clash target name taken) :
    Excusable resolver target w (.invalid target name (.nameTaken taken))
  | noComparator {name : String} {sw : SwitchState} {c : Case} (hTarget : target = .stepFunctions)
    (hState : w.ReachesState name (.switch sw)) (hCase : c ∈ sw.cases) (hNone : c.Incomparable) :
    Excusable resolver target w (.invalid target name (.noComparator c.op c.val))

theorem CompileError.Excusable.of_reaches {resolver : Resolver} {target : Target} {w v : Workflow}
    {e : CompileError} (h : e.Excusable resolver target v) (hReaches : w.Reaches v) :
    e.Excusable resolver target w := by
  cases h with
  | unresolved hCalls hNone =>
    obtain ⟨name, s, hState, hCall⟩ := hCalls
    exact .unresolved ⟨name, s, hState.of_reaches hReaches, hCall⟩ hNone
  | nameTaken hClash => exact .nameTaken (hClash.of_reaches hReaches)
  | noComparator hTarget hState hCase hNone =>
    exact .noComparator hTarget (hState.of_reaches hReaches) hCase hNone

/-- The error blames a branch for how it starts. -/
inductive CompileError.BlamesBranch : CompileError → Prop
  | unsupported (target : Target) (kind : Kind) (state : String) :
    BlamesBranch (.unsupported target kind state)
  | undeclaredRoot (target : Target) (state root : String) :
    BlamesBranch (.invalid target state (.undeclaredRoot root))

theorem CompileError.Excusable.not_blamesBranch {resolver : Resolver} {target : Target}
    {w : Workflow} {e : CompileError} (h : e.Excusable resolver target w) : ¬ e.BlamesBranch := by
  cases h <;> rintro ⟨⟩

/-- The computation fails with such errors only. -/
def FailsWith {α : Type} (P : CompileError → Prop) (x : Except CompileError α) : Prop :=
  ∀ e, x = .error e → P e

namespace FailsWith

variable {α β : Type} {P : CompileError → Prop}

theorem ok (a : α) : FailsWith P (.ok a) := nofun

theorem error {e : CompileError} (h : P e) : FailsWith P (.error e : Except CompileError α) := by
  rintro _ ⟨⟩
  exact h

theorem bind {x : Except CompileError α} {f : α → Except CompileError β} (hx : FailsWith P x)
    (hf : ∀ a, x = .ok a → FailsWith P (f a)) : FailsWith P (x >>= f) := by
  cases x with
  | error e => exact error (hx e rfl)
  | ok a => exact hf a rfl

/-- What is made of a result without failing. -/
theorem bind_pure {x : Except CompileError α} {f : α → β} (hx : FailsWith P x) :
    FailsWith P (x >>= fun a => pure (f a)) :=
  hx.bind fun a _ => ok (f a)

theorem mapM {f : α → Except CompileError β} {as : List α} (h : ∀ a ∈ as, FailsWith P (f a)) :
    FailsWith P (as.mapM f) := by
  induction as with
  | nil => exact ok []
  | cons a rest ih =>
    obtain ⟨hHead, hRest⟩ := List.forall_mem_cons.mp h
    rw [List.mapM_cons]
    exact hHead.bind fun b _ => (ih hRest).bind_pure

end FailsWith

/-! ## What the encodings share -/

section Shared

variable {resolver : Resolver} {target : Target} {w : Workflow}

theorem addressOf_failsWith {activity : String} (hCalls : w.Calls activity) :
    FailsWith (CompileError.Excusable resolver target w) (addressOf resolver activity) := by
  unfold addressOf
  split
  · exact .ok _
  · exact .error (.unresolved hCalls ‹_›)

/-- Names are taken, or one of them would be given twice. -/
theorem claimNames_failsWith {name : String} {taken names all : List String}
    (hNames : (taken ++ names).Subperm all)
    (hClash : ∀ n, 2 ≤ all.count n → w.Clash target name n) :
    FailsWith (CompileError.Excusable resolver target w) (claimNames target name taken names) := by
  intro e hError
  obtain ⟨n, rfl, hTwice⟩ := twice_of_claimNames hError
  exact .nameTaken (hClash n (hTwice.trans (hNames.count_le n)))

/-- All calls of a repeat are to its activity. -/
theorem RepeatState.activity_of_mem_unrolled {r : RepeatState} {name : String}
    {e : String × TaskState} (h : e ∈ r.unrolled name) : e.2.activity = r.activity := by
  obtain ⟨i, -, rfl⟩ := List.mem_map.mp h
  rfl

/-- The task in the place of a root map calls the activity of the map. -/
theorem Branch.activity_of_elementTask? {b : Branch} {m : MapState} {activity : String}
    {t : TaskState} (hRoot : b.workflow.rootState? = some (.map m))
    (hBody : m.body = .activity activity) (h : b.elementTask? = some t) :
    t.activity = activity := by
  unfold Branch.elementTask? at h
  rw [hRoot] at h
  dsimp only at h
  split at h
  · rename_i hActivity
    rw [hBody] at hActivity
    cases hActivity
    cases h
    rfl
  · cases h

end Shared

/-! ## State machines -/

namespace StateMachine

variable {resolver : Resolver} {w : Workflow}

theorem rule?_eq_none_iff {c : Case} : rule? c = none ↔ c.Incomparable := by
  obtain ⟨var, op, val, next⟩ := c
  cases val <;> cases op <;> simp [rule?, comparator?, Case.Incomparable]

theorem taskFragments_failsWith {name : String} {t : TaskState} (hCalls : w.Calls t.activity) :
    FailsWith (CompileError.Excusable resolver .stepFunctions w) (taskFragments resolver name t) :=
  (addressOf_failsWith hCalls).bind_pure.bind_pure

theorem singleTask_failsWith {activity : String} (hCalls : w.Calls activity) :
    FailsWith (CompileError.Excusable resolver .stepFunctions w) (singleTask resolver activity) :=
  (addressOf_failsWith hCalls).bind_pure.bind_pure

theorem chainFragments_failsWith {tasks : List (String × TaskState)}
    (hCalls : ∀ e ∈ tasks, w.Calls e.2.activity) :
    FailsWith (CompileError.Excusable resolver .stepFunctions w)
      (chainFragments resolver tasks) := by
  induction tasks with
  | nil => exact .ok []
  | cons e rest ih =>
    obtain ⟨hHead, hRest⟩ := List.forall_mem_cons.mp hCalls
    exact (taskFragments_failsWith hHead).bind fun fs _ => (ih hRest).bind_pure

theorem choices_failsWith {name : String} {sw : SwitchState}
    (hState : w.ReachesState name (.switch sw)) {cases : List Case}
    (hCases : ∀ c ∈ cases, c ∈ sw.cases) :
    FailsWith (CompileError.Excusable resolver .stepFunctions w) (choices name cases) := by
  induction cases with
  | nil => exact .ok []
  | cons c rest ih =>
    obtain ⟨hHead, hRest⟩ := List.forall_mem_cons.mp hCases
    rw [choices]
    split
    · exact (ih hRest).bind_pure
    · exact .error (.noComparator rfl hState hHead (rule?_eq_none_iff.mp ‹_›))

theorem switchFragments_failsWith {name : String} {sw : SwitchState}
    (hState : w.ReachesState name (.switch sw)) :
    FailsWith (CompileError.Excusable resolver .stepFunctions w) (switchFragments name sw) := by
  refine (choices_failsWith hState fun c hc => hc).bind fun cs _ => ?_
  cases sw.default <;> exact .ok _

mutual

/-- The names that are taken by then are those for the states before. -/
theorem statesFragments_failsWith (hValid : w.validate = .ok ()) {replacement : Replacement}
    (hReplacement : ∀ name t, replacementOf replacement name = some t → w.Calls t.activity)
    {v : Workflow} (hReaches : w.Reaches v) {taken : List String} {before : List (String × State)}
    (hTaken : taken.Subperm (machineNames before)) (states : List (String × State))
    (hStates : v.states = before ++ states) :
    FailsWith (CompileError.Excusable resolver .stepFunctions w)
      (statesFragments resolver replacement taken states) := by
  cases states with
  | nil => exact .ok []
  | cons e rest =>
    obtain ⟨name, s⟩ := e
    have hMem : (name, s) ∈ v.states := by simp [hStates]
    have hState : w.ReachesState name s := hReaches.state hMem
    have hHead : FailsWith (CompileError.Excusable resolver .stepFunctions w)
        (replacedFragments resolver replacement name s) := by
      unfold replacedFragments
      split
      · exact taskFragments_failsWith (hReplacement name _ ‹_›)
      · exact fragments_failsWith hValid name s hState
    rw [statesFragments_cons]
    refine hHead.bind fun fs hfs => ?_
    have hNames : (taken ++ fs.map Prod.fst).Subperm (machineNames (before ++ [(name, s)])) := by
      rw [machineNames, List.flatMap_append, List.flatMap_singleton]
      exact hTaken.append (keys_of_replacedFragments (hState.validate hValid) hfs).subperm
    refine (claimNames_failsWith hNames fun n => .machine hReaches hStates).bind
      fun taken' hTaken' => ?_
    have hBefore := (subperm_of_claimNames hTaken').trans hNames
    exact (statesFragments_failsWith hValid hReplacement hReaches hBefore
      rest (by simp [hStates])).bind_pure
termination_by structural states

theorem fragments_failsWith (hValid : w.validate = .ok ()) (name : String) (s : State)
    (hState : w.ReachesState name s) :
    FailsWith (CompileError.Excusable resolver .stepFunctions w) (fragments resolver name s) := by
  cases s with
  | task t => exact taskFragments_failsWith ⟨name, _, hState, .task t⟩
  | switch sw => exact switchFragments_failsWith hState
  | «repeat» r =>
    refine chainFragments_failsWith fun e he => ?_
    rw [RepeatState.activity_of_mem_unrolled he]
    exact ⟨name, _, hState, .repeat r⟩
  | loop l => exact (singleTask_failsWith ⟨name, _, hState, .loop l⟩).bind_pure
  | map m =>
    obtain ⟨body, array, commonParams, maxConcurrency, next⟩ := m
    rw [fragments]
    refine (bodyMachine_failsWith hValid body ?_ ?_).bind_pure
    · rintro activity rfl
      exact ⟨name, _, hState, .map rfl⟩
    · rintro v rfl
      exact hState.enter (.body rfl)
  | parallel p =>
    obtain ⟨branches, next⟩ := p
    have hOk := State.validate_parallel_eq_ok_iff.mp (hState.validate hValid)
    rw [fragments]
    refine (branchMachines_failsWith hValid name branches fun b hb => ⟨?_, hOk.2.1 b hb⟩).bind_pure
    exact hState.enter (.branch hb)
termination_by structural s

theorem bodyMachine_failsWith (hValid : w.validate = .ok ()) (body : MapBody)
    (hCalls : ∀ activity, body = .activity activity → w.Calls activity)
    (hReaches : ∀ v, body = .workflow v → w.Reaches v) :
    FailsWith (CompileError.Excusable resolver .stepFunctions w) (bodyMachine resolver body) := by
  cases body with
  | activity activity => exact singleTask_failsWith (hCalls activity rfl)
  | workflow v =>
    obtain ⟨root, states⟩ := v
    have hLevel := hReaches _ rfl
    rw [bodyMachine]
    exact (statesFragments_failsWith hValid (fun _ _ h => by cases h) hLevel
      nil_subperm_machineNames states rfl).bind_pure
termination_by structural body

theorem branchMachines_failsWith (hValid : w.validate = .ok ()) (name : String)
    (branches : List Branch)
    (hBranches : ∀ b ∈ branches, w.Reaches b.workflow ∧ b.validate name = .ok ()) :
    FailsWith (CompileError.Excusable resolver .stepFunctions w)
      (branchMachines resolver name branches) := by
  cases branches with
  | nil => exact .ok []
  | cons b rest =>
    obtain ⟨hBranch, hRest⟩ := List.forall_mem_cons.mp hBranches
    rw [branchMachines]
    exact (branchMachine_failsWith hValid name b hBranch.1 hBranch.2).bind fun m _ =>
      (branchMachines_failsWith hValid name rest hRest).bind_pure
termination_by structural branches

theorem branchMachine_failsWith (hValid : w.validate = .ok ()) (name : String) (b : Branch)
    (hReaches : w.Reaches b.workflow) (hBranch : b.validate name = .ok ()) :
    FailsWith (CompileError.Excusable resolver .stepFunctions w)
      (branchMachine resolver name b) := by
  obtain ⟨bname, root, states⟩ := b
  rw [branchMachine]
  rcases Branch.rootState?_of_validate hBranch with ⟨t, hRoot⟩ | ⟨m, activity, hRoot, hBody⟩
  · rw [show Entries.get? root states = some (.task t) from hRoot]
    exact (statesFragments_failsWith hValid (fun _ _ h => by cases h) hReaches
      nil_subperm_machineNames states rfl).bind_pure
  · have hCalls : w.Calls activity :=
      ⟨root, _, hReaches.state (Workflow.mem_states hRoot), .map hBody⟩
    rw [show Entries.get? root states = some (.map m) from hRoot]
    simp only [hBody]
    split
    · rename_i t hTask
      refine (statesFragments_failsWith hValid (fun name t' hReplaced => ?_) hReaches
        nil_subperm_machineNames states rfl).bind fun fs _ => .ok _
      -- Only the root is replaced, by the task that calls what the map calls.
      rw [replacementOf] at hReplaced
      split at hReplaced
      · cases hReplaced
        rw [Branch.activity_of_elementTask? hRoot hBody hTask]
        exact hCalls
      · cases hReplaced
    · exact (singleTask_failsWith hCalls).bind_pure
termination_by structural b

end

end StateMachine

/-! ## Step programs -/

namespace StepProgram

namespace Lifting

variable {α β : Type} {P : CompileError → Prop}

theorem result_bind (x : Lifting α) (f : α → Lifting β) :
    (x >>= f).result = x.result >>= fun a => (f a).result := by
  obtain ⟨lifted, result⟩ := x
  cases result <;> rfl

theorem failsWith_bind {x : Lifting α} {f : α → Lifting β} (hx : FailsWith P x.result)
    (hf : ∀ a, x = ⟨x.lifted, .ok a⟩ → FailsWith P (f a).result) :
    FailsWith P (x >>= f).result := by
  rw [result_bind]
  exact hx.bind fun a ha => hf a (by rw [← ha])

theorem failsWith_bind_pure {x : Lifting α} {f : α → β} (hx : FailsWith P x.result) :
    FailsWith P (x >>= fun a => pure (f a)).result :=
  failsWith_bind hx fun a _ => .ok (f a)

end Lifting

variable {sc : Scope} {w : Workflow}

theorem post_failsWith {activity : String} (hCalls : w.Calls activity) (payload : Template)
    (result : String) :
    FailsWith (CompileError.Excusable sc.resolver .workflows w) (sc.post activity payload result) :=
  (addressOf_failsWith hCalls).bind_pure

theorem taskSteps_failsWith {name : String} {t : TaskState} (hCalls : w.Calls t.activity) :
    FailsWith (CompileError.Excusable sc.resolver .workflows w) (taskSteps sc name t) :=
  (post_failsWith hCalls _ _).bind_pure

theorem chainSteps_failsWith {tasks : List (String × TaskState)}
    (hCalls : ∀ e ∈ tasks, w.Calls e.2.activity) :
    FailsWith (CompileError.Excusable sc.resolver .workflows w) (chainSteps sc tasks) := by
  induction tasks with
  | nil => exact .ok []
  | cons e rest ih =>
    obtain ⟨hHead, hRest⟩ := List.forall_mem_cons.mp hCalls
    exact (taskSteps_failsWith hHead).bind fun steps _ => (ih hRest).bind_pure

theorem liftedMap_failsWith {P : CompileError → Prop} (name : String) (m : MapState)
    (next : Option String) (body : Workflow) : FailsWith P (liftedMap sc name m next body).result :=
  .ok _

theorem mapSteps_failsWith {name : String} {m : MapState}
    (hCalls : ∀ activity, m.body = .activity activity → w.Calls activity) :
    FailsWith (CompileError.Excusable sc.resolver .workflows w) (mapSteps sc name m).result := by
  rw [mapSteps]
  cases hBody : m.body with
  | activity activity => exact (post_failsWith (hCalls activity hBody) _ _).bind_pure
  | workflow body => exact liftedMap_failsWith name m m.next body

/-- The steps of a branch are wrapped, or one of them is named like those around it. -/
theorem wrapBranch_failsWith {name : String} {slot root : String} {steps : StepProgram}
    {array : Option String}
    (hClash : ∀ n ∈ branchReserved slot, n ∈ Entries.keys steps → w.Clash .workflows name n) :
    FailsWith (CompileError.Excusable sc.resolver .workflows w)
      (wrapBranch sc name slot root steps array) := by
  unfold wrapBranch
  dsimp only
  split
  · rename_i taken step hFound
    have hReserved := List.find?_some hFound
    have hName := List.mem_map_of_mem (f := Prod.fst) (List.mem_of_find?_eq_some hFound)
    exact .error (.nameTaken (hClash taken (List.contains_iff_mem.mp hReserved) hName))
  · exact .ok _

mutual

/-- The names that are taken by then are the reserved ones and those for the states before. -/
theorem statesSteps_failsWith (hValid : w.validate = .ok ()) {sec : Section}
    (hSection : w.HasSection sec) (hReaches : w.Reaches sec.workflow) {taken : List String}
    {before : List (String × State)}
    (hTaken : taken.Subperm (reserved ++ sec.scope.stepNames before))
    (states : List (String × State)) (hStates : sec.workflow.states = before ++ states) :
    FailsWith (CompileError.Excusable sec.scope.resolver .workflows w)
      (statesSteps sec.scope taken states).result := by
  cases states with
  | nil => exact .ok []
  | cons e rest =>
    obtain ⟨name, s⟩ := e
    have hState : (name, s) ∈ sec.workflow.states := by simp [hStates]
    rw [statesSteps]
    refine Lifting.failsWith_bind (stateSteps_failsWith hValid hSection hReaches name s hState)
      fun steps hSteps => ?_
    have hNames : (taken ++ steps.map Prod.fst).Subperm
        (reserved ++ sec.scope.stepNames (before ++ [(name, s)])) := by
      rw [Scope.stepNames, List.flatMap_append, List.flatMap_singleton, ← keys_of_stateSteps hSteps,
        ← List.append_assoc]
      exact hTaken.append (.refl _)
    refine Lifting.failsWith_bind (claimNames_failsWith hNames fun n =>
      .steps hSection hReaches hStates) fun taken' hTaken' => ?_
    have hBefore := (subperm_of_claimNames (Lifting.ofExcept_eq_ok_iff.mp hTaken').2).trans hNames
    exact Lifting.failsWith_bind_pure
      (statesSteps_failsWith hValid hSection hReaches hBefore rest (by simp [hStates]))
termination_by structural states

theorem stateSteps_failsWith (hValid : w.validate = .ok ()) {sec : Section}
    (hSection : w.HasSection sec) (hReaches : w.Reaches sec.workflow) (name : String) (s : State)
    (hState : (name, s) ∈ sec.workflow.states) :
    FailsWith (CompileError.Excusable sec.scope.resolver .workflows w)
      (stateSteps sec.scope name s).result := by
  have hLevel : w.ReachesState name s := hReaches.state hState
  cases s with
  | task t => exact taskSteps_failsWith ⟨name, _, hLevel, .task t⟩
  | «switch» sw => exact .ok _
  | map m => exact mapSteps_failsWith fun activity hBody => ⟨name, _, hLevel, .map hBody⟩
  | «repeat» r =>
    refine chainSteps_failsWith fun e he => ?_
    rw [RepeatState.activity_of_mem_unrolled he]
    exact ⟨name, _, hLevel, .repeat r⟩
  | loop l => exact (post_failsWith ⟨name, _, hLevel, .loop l⟩ _ _).bind_pure
  | parallel p =>
    obtain ⟨branches, next⟩ := p
    have hOk := State.validate_parallel_eq_ok_iff.mp (hLevel.validate hValid)
    rw [stateSteps]
    exact Lifting.failsWith_bind_pure
      (branchesSteps_failsWith hValid hSection hReaches name hState branches fun b hb =>
        ⟨hb, hOk.2.1 b hb⟩)
termination_by structural s

theorem branchesSteps_failsWith (hValid : w.validate = .ok ()) {sec : Section}
    (hSection : w.HasSection sec) (hReaches : w.Reaches sec.workflow) (name : String)
    {p : ParallelState} (hState : (name, .parallel p) ∈ sec.workflow.states)
    (branches : List Branch)
    (hBranches : ∀ b ∈ branches, b ∈ p.branches ∧ b.validate name = .ok ()) :
    FailsWith (CompileError.Excusable sec.scope.resolver .workflows w)
      (branchesSteps sec.scope name branches).result := by
  cases branches with
  | nil => exact .ok []
  | cons b rest =>
    obtain ⟨⟨hBranch, hOk⟩, hRest⟩ := List.forall_mem_cons.mp hBranches
    have hInner : w.Reaches b.workflow := .enter hReaches hState (.branch hBranch)
    rw [branchesSteps]
    refine Lifting.failsWith_bind
      (branchSteps_failsWith hValid name b (hSection.branch hState hBranch) hInner hOk)
      fun steps hSteps => ?_
    have hWrap : ∀ n ∈ branchReserved (slotOf sec.scope name b), n ∈ Entries.keys steps.1 →
        w.Clash .workflows name n := by
      intro n hReserved hName
      rw [keys_of_branchSteps hSteps] at hName
      exact .branch hSection hReaches hState hBranch hReserved hName
    refine Lifting.failsWith_bind (wrapBranch_failsWith hWrap) fun branch _ => ?_
    exact Lifting.failsWith_bind_pure
      (branchesSteps_failsWith hValid hSection hReaches name hState rest hRest)
termination_by structural branches

theorem branchSteps_failsWith (hValid : w.validate = .ok ()) {sc : Scope} (name : String)
    (b : Branch) (hSection : w.HasSection (.ofBranch sc name b)) (hReaches : w.Reaches b.workflow)
    (hBranch : b.validate name = .ok ()) :
    FailsWith (CompileError.Excusable sc.resolver .workflows w)
      (branchSteps (sc.inBranch (slotOf sc name b)) name b).result := by
  obtain ⟨bname, root, states⟩ := b
  rw [branchSteps]
  rcases Branch.rootState?_of_validate hBranch with ⟨t, hRoot⟩ | ⟨m, activity, hRoot, hBody⟩
  · have hGet : Entries.get? root states = some (.task t) := hRoot
    -- All states stand in the branch, so that its section is the level.
    have hLevel : (Section.ofBranch sc name ⟨bname, root, states⟩).workflow = ⟨root, states⟩ := by
      rw [Section.ofBranch, Branch.standing, hGet]
    rw [hGet]
    exact Lifting.failsWith_bind_pure (statesSteps_failsWith hValid hSection (by rwa [hLevel])
      (Scope.reserved_subperm _) states (by rw [hLevel]; rfl))
  · rw [show Entries.get? root states = some (.map m) from hRoot]
    dsimp only
    split
    · exact Lifting.failsWith_bind_pure (liftedMap_failsWith root m none _)
    · refine Lifting.failsWith_bind_pure (mapSteps_failsWith fun activity hActivity => ?_)
      exact ⟨root, _, hReaches.state (Workflow.mem_states hRoot), .map hActivity⟩
termination_by structural b

end

/-- The document of a level fails with what is left to the workflow. -/
theorem stepDocument_failsWith (hValid : w.validate = .ok ()) (resolver : Resolver) (id : String) :
    FailsWith (CompileError.Excusable resolver .workflows w)
      (w.stepDocument (.top resolver id)).result :=
  Lifting.failsWith_bind_pure
    (statesSteps_failsWith hValid ((Workflow.Reaches.refl w).hasSection resolver id) (.refl w)
      (Scope.reserved_subperm _) w.states rfl)

/-- What is lifted on the way to a document are levels of the workflow, also
if the document fails. -/
theorem reaches_of_mem_lifted {site : String × Workflow} (h : site ∈ (w.stepDocument sc).lifted) :
    w.Reaches site.2 :=
  reaches_of_mem_statesSites ((stepDocument_meets sc w).1.subset h) fun _ he => he

/-- The documents of bodies fail with what is left to these. -/
theorem liftedDocuments_failsWith {resolver : Resolver} {P : CompileError → Prop} (passes : Nat)
    (bodies : Entries Workflow) (hBodies : ∀ site ∈ bodies, site.2.validate = .ok () ∧
      ∀ e, e.Excusable resolver .workflows site.2 → P e) :
    FailsWith P (liftedDocuments resolver passes bodies) := by
  induction passes generalizing bodies with
  | zero => exact .ok []
  | succ passes ih =>
    rw [liftedDocuments]
    refine FailsWith.bind_pure (FailsWith.mapM fun site hSite => ?_)
    obtain ⟨hValid, hLeft⟩ := hBodies site hSite
    refine FailsWith.bind (fun e hError => hLeft e ?_) fun doc _ => FailsWith.bind_pure (ih _ ?_)
    · exact stepDocument_failsWith hValid resolver site.1 e hError
    · intro inner hInner
      have hReaches := reaches_of_mem_lifted (mem_of_mem_pendingAfter hInner)
      exact ⟨hReaches.validate hValid, fun e hExcusable => hLeft e (hExcusable.of_reaches hReaches)⟩

end StepProgram

/-! ## Compilers -/

namespace Compiler

open StepProgram

variable {resolver : Resolver} {id : String}

/-- The bodies that wait after some calls waited before, or they are levels
of what was generated. -/
theorem exists_pending_after (calls : List Call) (pending : Entries Workflow) :
    ∃ pending', (keeping resolver id pending).after calls = keeping resolver id pending' ∧
      ∀ site ∈ pending', site ∈ pending ∨ ∃ v, Call.generate v ∈ calls ∧ v.Reaches site.2 := by
  induction calls generalizing pending with
  | nil => exact ⟨pending, rfl, fun site hSite => .inl hSite⟩
  | cons call rest ih =>
    rw [after, List.foldl_cons]
    cases call with
    | generate w =>
      rw [perform, generate_keeping]
      obtain ⟨pending', hAfter, hFrom⟩ :=
        ih (pending.insertAll (w.stepDocument (.top resolver id)).lifted)
      refine ⟨pending', hAfter, fun site hSite => ?_⟩
      rcases hFrom site hSite with hBefore | ⟨v, hCall, hReaches⟩
      · rcases List.mem_append.mp ((Entries.insertAll_subperm _ _).subset hBefore) with hOld
          | hLifted
        · exact .inl hOld
        · exact .inr ⟨w, List.mem_cons_self, reaches_of_mem_lifted hLifted⟩
      · exact .inr ⟨v, List.mem_cons_of_mem _ hCall, hReaches⟩
    | generateMaps =>
      rw [perform, generateMaps_keeping]
      obtain ⟨pending', hAfter, hFrom⟩ := ih []
      refine ⟨pending', hAfter, fun site hSite => .inr ?_⟩
      rcases hFrom site hSite with hNone | ⟨v, hCall, hReaches⟩
      · cases hNone
      · exact ⟨v, List.mem_cons_of_mem _ hCall, hReaches⟩

theorem failsWith_generate_keeping {w : Workflow} (hValid : w.validate = .ok ())
    (pending : Entries Workflow) :
    FailsWith (CompileError.Excusable resolver .workflows w)
      ((keeping resolver id pending).generate w).1 := by
  rw [generate_keeping, ← bind_pure_comp]
  exact (stepDocument_failsWith hValid resolver id).bind_pure

/-- After calls with valid workflows, the documents of the maps fail with what is
left to one of these. -/
theorem failsWith_generateMaps_history {calls : List Call}
    (hValid : ∀ v, Call.generate v ∈ calls → v.validate = .ok ()) :
    FailsWith (fun e => ∃ v, Call.generate v ∈ calls ∧ e.Excusable resolver .workflows v)
      (history resolver id calls).generateMaps.1 := by
  obtain ⟨pending, hAfter, hFrom⟩ := @exists_pending_after resolver id calls []
  rw [show history resolver id calls = keeping resolver id pending from hAfter,
    generateMaps_keeping, ← bind_pure_comp]
  refine FailsWith.bind_pure (liftedDocuments_failsWith _ _ fun site hSite => ?_)
  rcases hFrom site hSite with hNone | ⟨v, hCall, hReaches⟩
  · cases hNone
  · exact ⟨hReaches.validate (hValid v hCall), fun e he => ⟨v, hCall, he.of_reaches hReaches⟩⟩

/-- A valid workflow fails to become a state machine, or a step program, only in the ways that are
left to it. So do the documents of its maps, besides those of other valid workflows that the
compiler was given before. -/
theorem fails_excusably {w : Workflow} (hValid : w.validate = .ok ()) (resolver : Resolver)
    (id : String) :
    (∀ e, ((fresh .stepFunctions resolver id).encode w).1 = .error e →
      e.Excusable resolver .stepFunctions w ∧ ¬ e.BlamesBranch) ∧
    ∀ calls, (∀ v, Call.generate v ∈ calls → v.validate = .ok ()) →
      (∀ e, ((history resolver id calls).generate w).1 = .error e →
        e.Excusable resolver .workflows w ∧ ¬ e.BlamesBranch) ∧
      ∀ e, ((history resolver id calls).generate w).2.generateMaps.1 = .error e →
        (∃ v, (v = w ∨ Call.generate v ∈ calls) ∧ e.Excusable resolver .workflows v) ∧
        ¬ e.BlamesBranch := by
  refine ⟨fun e hError => ?_, fun calls hCalls => ⟨fun e hError => ?_, fun e hError => ?_⟩⟩
  · have hMachine :
        FailsWith (CompileError.Excusable resolver .stepFunctions w) (w.machine resolver) :=
      (StateMachine.statesFragments_failsWith hValid (fun _ _ h => by cases h) (.refl w)
        nil_subperm_machineNames w.states rfl).bind_pure
    have hEncode : FailsWith (CompileError.Excusable resolver .stepFunctions w)
        (Machine.toJson <$> w.machine resolver) := by
      rw [← bind_pure_comp]
      exact hMachine.bind_pure
    exact ⟨hEncode e hError, (hEncode e hError).not_blamesBranch⟩
  · obtain ⟨pending, hAfter, -⟩ := @exists_pending_after resolver id calls []
    rw [show history resolver id calls = keeping resolver id pending from hAfter] at hError
    have hExcusable := failsWith_generate_keeping hValid pending e hError
    exact ⟨hExcusable, hExcusable.not_blamesBranch⟩
  · have hAll : ∀ v, Call.generate v ∈ calls ++ [.generate w] → v.validate = .ok () := by
      intro v hv
      rcases List.mem_append.mp hv with hBefore | hLast
      · exact hCalls v hBefore
      · cases List.mem_singleton.mp hLast
        exact hValid
    have hHistory : history resolver id (calls ++ [.generate w]) =
        ((history resolver id calls).generate w).2 := by
      rw [history, after, List.foldl_append]
      rfl
    obtain ⟨v, hv, hExcusable⟩ :=
      failsWith_generateMaps_history hAll e (by rw [hHistory]; exact hError)
    refine ⟨⟨v, ?_, hExcusable⟩, hExcusable.not_blamesBranch⟩
    rcases List.mem_append.mp hv with hBefore | hLast
    · exact .inr hBefore
    · cases List.mem_singleton.mp hLast
      exact .inl rfl

/-- A branch that maps its elements, compares one of their fields with a list
and calls an activity. -/
def listComparison : Workflow :=
  ⟨"p", [("p", .parallel ⟨[⟨none, ⟨"m", [("m", .map ⟨.activity "f", "xs", none, none, some "s"⟩),
    ("s", .switch ⟨[⟨"y", .equals, .arr [], "t"⟩], some "t"⟩),
    ("t", .task ⟨"nowhere", none⟩)]⟩⟩], none⟩)]⟩

/-- As a state machine it fails for the list, as a step program for the activity, which has no
address. Both are met only in the workflow of the elements, which is derived and lifted. -/
theorem fails_excusably_listComparison :
    listComparison.validate = .ok () ∧
      (CompileError.invalid .stepFunctions "s" (.noComparator .equals (.arr []))).Excusable
        ⟨none, [("f", "/f")]⟩ .stepFunctions listComparison ∧
      (CompileError.unresolved "nowhere").Excusable ⟨none, [("f", "/f")]⟩ .workflows
        listComparison := by
  have hValid : listComparison.validate = .ok () := rfl
  obtain ⟨hMachine, hSteps⟩ := fails_excusably hValid ⟨none, [("f", "/f")]⟩ "w"
  obtain ⟨-, hMaps⟩ := hSteps [] nofun
  refine ⟨hValid, (hMachine _ rfl).1, ?_⟩
  obtain ⟨⟨v, rfl | hNone, hExcusable⟩, -⟩ := hMaps (.unresolved "nowhere") rfl
  · exact hExcusable
  · cases hNone

end Compiler

end Orchestration
