import Mathlib.Data.List.Perm.Subperm
import Orchestration.Proofs.StateMachine.Closure
import Orchestration.Proofs.StepProgram.Jumps

/-!
# The names of fragments

The names of the fragments of a state are made from the name of the state and from what kind of
state it is. The fragments of the states of a level stand side by side, in a document or in a branch
of it, where each name is given only once.

* `State.machineNames`, `State.stepNames`: the names for a state. Its fragments have these and no
  others (`StateMachine.keys_of_fragments`, `StepProgram.keys_of_stateSteps`).
* `Workflow.Clash`: a name that would be given twice at a level of the workflow.
-/

namespace Orchestration

/-! ## Taking names -/

/-- A name that is found to be taken is there twice. -/
theorem twice_of_claimNames {target : Target} {state : String} {taken names : List String}
    {e : CompileError} (h : claimNames target state taken names = .error e) :
    ∃ name, e = .invalid target state (.nameTaken name) ∧ 2 ≤ (taken ++ names).count name := by
  induction names generalizing taken with
  | nil => cases h
  | cons name rest ih =>
    rw [claimNames] at h
    split at h
    · rename_i hTaken
      cases h
      have hBefore := List.one_le_count_iff.mpr (List.contains_iff_mem.mp hTaken)
      refine ⟨name, rfl, ?_⟩
      rw [List.count_append, List.count_cons_self]
      omega
    · obtain ⟨twice, hError, hCount⟩ := ih h
      have hPerm : (taken ++ name :: rest).Perm (name :: taken ++ rest) := List.perm_middle
      exact ⟨twice, hError, by rwa [hPerm.count_eq]⟩

theorem subperm_of_claimNames {target : Target} {state : String} {taken taken' names : List String}
    (h : claimNames target state taken names = .ok taken') : taken'.Subperm (taken ++ names) := by
  obtain ⟨-, -, rfl⟩ := claimNames_eq_ok h
  have hPerm : (names.reverse ++ taken).Perm (taken ++ names) :=
    List.perm_append_comm.trans (names.reverse_perm.append_left taken)
  exact hPerm.subperm

/-! ## State machines -/

/-- The names of the machine states for a state. -/
def State.machineNames (name : String) : State → List String
  | .switch s =>
    match s.default with
    | some _ => [name]
    | none => [name, StateMachine.noMatchName name]
  | .repeat r => (r.unrolled name).map Prod.fst
  | .task _ | .loop _ | .map _ | .parallel _ => [name]

/-- The names of the machine states for states that stand side by side. -/
def machineNames (states : List (String × State)) : List String :=
  states.flatMap fun e => e.2.machineNames e.1

/-- Before the first state of a level no names are taken. -/
theorem nil_subperm_machineNames : ([] : List String).Subperm (machineNames []) :=
  .refl []

namespace StateMachine

variable {resolver : Resolver}

theorem keys_of_fragments {name : String} {s : State} {fs : List (String × MachineState)}
    (h : fragments resolver name s = .ok fs) : Entries.keys fs = s.machineNames name := by
  cases s with
  | task t =>
    obtain ⟨address, -, rfl⟩ := taskFragments_eq_ok_iff.mp h
    rfl
  | «switch» sw =>
    obtain ⟨cs, -, hDefault⟩ := bind_eq_ok_iff.mp h
    rw [State.machineNames]
    cases hSome : sw.default with
    | some default =>
      rw [hSome] at hDefault
      cases pure_eq_ok_iff.mp hDefault
      rfl
    | none =>
      rw [hSome] at hDefault
      cases pure_eq_ok_iff.mp hDefault
      rfl
  | «repeat» r => exact keys_of_chainFragments h
  | loop l =>
    obtain ⟨address, -, rfl⟩ := loopFragments_eq_ok_iff.mp h
    rfl
  | map m =>
    obtain ⟨iterator, -, rfl⟩ := fragments_map_eq_ok_iff.mp h
    rfl
  | parallel p =>
    obtain ⟨machines, -, rfl⟩ := fragments_parallel_eq_ok_iff.mp h
    rfl

/-- A valid state has a machine state of its own name. -/
theorem mem_machineNames {name : String} {s : State} (hValid : s.validate name = .ok ()) :
    name ∈ s.machineNames name := by
  cases s with
  | «switch» sw =>
    rw [State.machineNames]
    cases sw.default <;> exact List.mem_cons_self
  | «repeat» r =>
    have hCount := State.validate_repeat_eq_ok_iff.mp hValid
    have hFirst : 0 ∈ List.range r.count := List.mem_range.mpr (Nat.pos_of_ne_zero hCount)
    exact List.mem_map.mpr ⟨_, List.mem_map_of_mem hFirst, rfl⟩
  | _ => exact List.mem_singleton_self name

/-- A task in the place of a state takes no names but those of the state. -/
theorem keys_of_replacedFragments {replacement : Replacement} {name : String} {s : State}
    {fs : List (String × MachineState)} (hValid : s.validate name = .ok ())
    (h : replacedFragments resolver replacement name s = .ok fs) :
    (Entries.keys fs).Sublist (s.machineNames name) := by
  unfold replacedFragments at h
  split at h
  · obtain ⟨address, -, rfl⟩ := taskFragments_eq_ok_iff.mp h
    exact List.singleton_sublist.mpr (mem_machineNames hValid)
  · rw [keys_of_fragments h]

end StateMachine

/-! ## Step programs -/

/-- The names of the steps for a state, in no scope yet. -/
def State.stepNames (name : String) : State → List String
  | .task _ => [name, name ++ "_result"]
  | .switch _ => [name]
  | .repeat r => (r.unrolled name).flatMap fun e => [e.1, e.1 ++ "_result"]
  | .loop _ => [name, name ++ "_done"]
  | .map m =>
    match m.body with
    | .activity _ => [name, name ++ "_fanout", name ++ "_gather", name ++ "_writeback"]
    | .workflow _ => [name, name ++ "_collect", name ++ "_call", name ++ "_writeback"]
  | .parallel _ => [name, name ++ "_branches", name ++ "_merge"]

namespace StepProgram

/-- The names of the steps for states that stand side by side. -/
def Scope.stepNames (sc : Scope) (states : List (String × State)) : List String :=
  states.flatMap fun e => (e.2.stepNames e.1).map sc.name

/-- Before the first state only the reserved names are taken. -/
theorem Scope.reserved_subperm (sc : Scope) : reserved.Subperm (reserved ++ sc.stepNames []) :=
  (List.sublist_append_left reserved _).subperm

variable {sc : Scope}

theorem keys_of_chainSteps {tasks : List (String × TaskState)} {p : StepProgram}
    (h : chainSteps sc tasks = .ok p) :
    Entries.keys p = (tasks.flatMap fun e => [e.1, e.1 ++ "_result"]).map sc.name := by
  induction tasks generalizing p with
  | nil =>
    cases h
    rfl
  | cons entry rest ih =>
    obtain ⟨name, t⟩ := entry
    obtain ⟨steps, hSteps, more, hMore, rfl⟩ := chainSteps_cons_eq_ok_iff.mp h
    obtain ⟨url, -, rfl⟩ := taskSteps_eq_ok_iff.mp hSteps
    rw [List.flatMap_cons, List.map_append, ← ih hMore]
    rfl

theorem keys_of_mapSteps {name : String} {m : MapState} {lifted : List (String × Workflow)}
    {p : StepProgram} (h : mapSteps sc name m = ⟨lifted, .ok p⟩) :
    Entries.keys p = ((State.map m).stepNames name).map sc.name := by
  rw [State.stepNames]
  rcases mapSteps_eq_ok h with ⟨activity, hBody, -, hInline⟩ | ⟨body, hBody, hLifted⟩
  · obtain ⟨url, -, rfl⟩ := inlineMap_eq_ok_iff.mp hInline
    rw [hBody]
    rfl
  · obtain ⟨-, rfl⟩ := liftedMap_eq_ok_iff.mp hLifted
    rw [hBody]
    rfl

/-- The steps have the names for the state. -/
def Named (sc : Scope) (name : String) (s : State) (p : StepProgram) : Prop :=
  Entries.keys p = (s.stepNames name).map sc.name

theorem keptByEncoding_named : KeptByEncoding Named := by
  refine ⟨fun {sc name s lifted p} hKind h => ?_, fun _ _ => rfl⟩
  cases s with
  | task t =>
    obtain ⟨url, -, rfl⟩ := taskSteps_eq_ok_iff.mp (Lifting.ofExcept_eq_ok_iff.mp h).2
    rfl
  | «switch» sw =>
    obtain ⟨-, rfl⟩ := Lifting.pure_eq_ok_iff.mp h
    rfl
  | map m => exact keys_of_mapSteps h
  | «repeat» r => exact keys_of_chainSteps (Lifting.ofExcept_eq_ok_iff.mp h).2
  | loop l =>
    obtain ⟨url, -, rfl⟩ := loopSteps_eq_ok_iff.mp (Lifting.ofExcept_eq_ok_iff.mp h).2
    rfl
  | parallel p => exact absurd rfl hKind

theorem keys_of_stateSteps {name : String} {s : State} {lifted : List (String × Workflow)}
    {p : StepProgram} (h : stateSteps sc name s = ⟨lifted, .ok p⟩) :
    Entries.keys p = (s.stepNames name).map sc.name :=
  stateSteps_induct keptByEncoding_named h

theorem keys_of_blocks {states : List (String × State)} {blocks : List StepProgram}
    (h : List.Forall₂ (fun e => Named sc e.1 e.2) states blocks) :
    Entries.keys (List.flatten blocks) = sc.stepNames states := by
  rw [Scope.stepNames]
  induction h with
  | nil => rfl
  | cons hBlock _ ih =>
    rw [List.flatten_cons, List.flatMap_cons, ← ih, ← hBlock]
    exact List.map_append

/-- The steps of states that stand side by side have the names for them. -/
theorem keys_of_statesSteps {states : List (String × State)} {taken : List String}
    {lifted : List (String × Workflow)} {p : StepProgram}
    (h : statesSteps sc taken states = ⟨lifted, .ok p⟩) : Entries.keys p = sc.stepNames states := by
  obtain ⟨blocks, rfl, hBlocks⟩ := statesSteps_blocks keptByEncoding_named h
  exact keys_of_blocks hBlocks

/-- The steps of a branch have the names for the states that stand in it. -/
theorem keys_of_branchSteps {name : String} {b : Branch} {lifted : List (String × Workflow)}
    {steps : StepProgram} {array : Option String}
    (h : branchSteps sc name b = ⟨lifted, .ok (steps, array)⟩) :
    Entries.keys steps = sc.stepNames b.standing := by
  obtain ⟨blocks, rfl, -, hBlocks⟩ := branchSteps_blocks keptByEncoding_named h
  exact keys_of_blocks hBlocks

end StepProgram

/-! ## Clashes -/

open StepProgram in
/-- The section is one of a document of the workflow: its own document, or that
of a level inside it. -/
def Workflow.HasSection (w : Workflow) (sec : Section) : Prop :=
  ∃ resolver site, w.Reaches site.2 ∧ (Section.ofDocument resolver site).Contains sec

open StepProgram in
/-- At some level of the workflow a target would give this name twice, the second time for this
state. The steps of a branch besides may not be named like those that stand around them. -/
inductive Workflow.Clash (w : Workflow) : Target → String → String → Prop
  | machine {v : Workflow} {before after : List (String × State)} {name taken : String} {s : State}
    (hReaches : w.Reaches v) (hStates : v.states = before ++ (name, s) :: after)
    (hTwice : 2 ≤ (machineNames (before ++ [(name, s)])).count taken) :
    w.Clash .stepFunctions name taken
  | steps {sec : Section} {before after : List (String × State)} {name taken : String} {s : State}
    (hSection : w.HasSection sec) (hReaches : w.Reaches sec.workflow)
    (hStates : sec.workflow.states = before ++ (name, s) :: after)
    (hTwice : 2 ≤ (reserved ++ sec.scope.stepNames (before ++ [(name, s)])).count taken) :
    w.Clash .workflows name taken
  | branch {sec : Section} {name taken : String} {s : State} {b : Branch}
    (hSection : w.HasSection sec) (hReaches : w.Reaches sec.workflow)
      (hState : (name, s) ∈ sec.workflow.states)
    (hBranch : b ∈ s.branches) (hReserved : taken ∈ branchReserved (slotOf sec.scope name b))
    (hName : taken ∈ (Section.ofBranch sec.scope name b).scope.stepNames b.standing) :
    w.Clash .workflows name taken

namespace Workflow

open StepProgram

variable {w v : Workflow}

theorem Reaches.hasSection (h : w.Reaches v) (resolver : Resolver) (id : String) :
    w.HasSection (.ofDocument resolver (id, v)) :=
  ⟨resolver, (id, v), h, .refl _⟩

theorem HasSection.branch {sec : Section} {name : String} {s : State} {b : Branch}
    (h : w.HasSection sec) (hState : (name, s) ∈ sec.workflow.states) (hBranch : b ∈ s.branches) :
    w.HasSection (.ofBranch sec.scope name b) := by
  obtain ⟨resolver, site, hReaches, hContains⟩ := h
  exact ⟨resolver, site, hReaches, .branch hContains hState hBranch⟩

theorem HasSection.of_reaches {sec : Section} (h : v.HasSection sec) (hReaches : w.Reaches v) :
    w.HasSection sec := by
  obtain ⟨resolver, site, hInner, hContains⟩ := h
  exact ⟨resolver, site, hReaches.trans hInner, hContains⟩

theorem Clash.of_reaches {target : Target} {name taken : String} (h : v.Clash target name taken)
    (hReaches : w.Reaches v) : w.Clash target name taken := by
  cases h with
  | machine hInner hStates hTwice => exact .machine (hReaches.trans hInner) hStates hTwice
  | steps hSection hInner hStates hTwice =>
    exact .steps (hSection.of_reaches hReaches) (hReaches.trans hInner) hStates hTwice
  | branch hSection hInner hState hBranch hReserved hName =>
    exact .branch (hSection.of_reaches hReaches) (hReaches.trans hInner) hState hBranch
      hReserved hName

end Workflow

end Orchestration
