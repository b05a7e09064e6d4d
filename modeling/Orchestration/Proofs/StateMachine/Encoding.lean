import Orchestration.Proofs.Target.Addresses
import Orchestration.Proofs.Workflow.Levels
import Orchestration.Target.StateMachine.Encoding

/-!
# What the encoding as a state machine gives

`Machine.Encodes` says of a machine that it has the fragments of every state of a workflow, also of
a workflow whose root is replaced by a task. The machine of a workflow does
(`Workflow.encodes_machine`), as do the machines inside it; the lemmas `…_eq_ok_iff` say what the
fragments of a state are.
-/

namespace Orchestration

open StateMachine

variable {resolver : Resolver}

/-! ## Fragments -/

/-- The fragments of a state that may be replaced by a task. -/
def replacedFragments (resolver : Resolver) (replacement : Replacement) (name : String)
    (s : State) :
    Except CompileError (List (String × MachineState)) :=
  match replacementOf replacement name with
  | some t => taskFragments resolver name t
  | none => fragments resolver name s

theorem statesFragments_cons (resolver : Resolver) (replacement : Replacement) (taken : List String)
    (name : String) (s : State) (rest : List (String × State)) :
    statesFragments resolver replacement taken ((name, s) :: rest) =
      replacedFragments resolver replacement name s >>= fun fs =>
        claimNames target name taken (fs.map Prod.fst) >>= fun taken' =>
          statesFragments resolver replacement taken' rest >>= fun more => pure (fs ++ more) := by
  rw [statesFragments, replacedFragments]
  cases replacementOf replacement name <;> rfl

theorem statesFragments_cons_eq_ok_iff {replacement : Replacement} {taken : List String}
    {name : String} {s : State} {rest : List (String × State)} {fs : List (String × MachineState)} :
    statesFragments resolver replacement taken ((name, s) :: rest) = .ok fs ↔
      ∃ gs, replacedFragments resolver replacement name s = .ok gs ∧
        ∃ taken', claimNames target name taken (gs.map Prod.fst) = .ok taken' ∧
        ∃ hs, statesFragments resolver replacement taken' rest = .ok hs ∧ gs ++ hs = fs := by
  rw [statesFragments_cons]
  simp only [bind_eq_ok_iff, pure_eq_ok_iff]

/-- The fragments of all states have different names, and those of each state are among them. -/
theorem statesFragments_eq_ok {replacement : Replacement} {taken : List String}
    {states : List (String × State)} {fs : List (String × MachineState)}
    (h : statesFragments resolver replacement taken states = .ok fs) :
    (Entries.keys fs).Nodup ∧ (∀ name ∈ Entries.keys fs, name ∉ taken) ∧
      ∀ name s, (name, s) ∈ states → ∃ gs, replacedFragments resolver replacement name s = .ok gs ∧
        ∀ e ∈ gs, e ∈ fs := by
  induction states generalizing taken fs with
  | nil =>
    cases h
    simp
  | cons entry rest ih =>
    obtain ⟨name, s⟩ := entry
    obtain ⟨gs, hHead, taken', hClaim, hs, hRest, rfl⟩ := statesFragments_cons_eq_ok_iff.mp h
    obtain ⟨hNodup, hNew, hIn⟩ := ih hRest
    obtain ⟨hNames, hFree⟩ := nodup_append_of_claimNames hClaim hNodup hNew
    rw [Entries.keys, List.map_append]
    refine ⟨hNames, hFree, ?_⟩
    intro k s' hMem
    rcases List.mem_cons.mp hMem with hMem | hMem
    · cases hMem
      exact ⟨gs, hHead, fun e he => List.mem_append_left hs he⟩
    · obtain ⟨gs', hGs', hSub⟩ := hIn k s' hMem
      exact ⟨gs', hGs', fun e he => List.mem_append_right gs (hSub e he)⟩

theorem taskFragments_eq_ok_iff {name : String} {t : TaskState}
    {fs : List (String × MachineState)} :
    taskFragments resolver name t = .ok fs ↔
      ∃ address, resolver.resolve t.activity = some address ∧
        [(name, .task address t.next)] = fs := by
  rw [taskFragments, taskState]
  simp only [bind_eq_ok_iff, pure_eq_ok_iff, addressOf_eq_ok_iff]
  constructor
  · rintro ⟨-, ⟨address, hAddress, rfl⟩, rfl⟩
    exact ⟨address, hAddress, rfl⟩
  · rintro ⟨address, hAddress, rfl⟩
    exact ⟨_, ⟨address, hAddress, rfl⟩, rfl⟩

/-- The fragments are those of the states, one after the other. -/
theorem statesFragments_eq_flatten {taken : List String} {states : List (String × State)}
    {fs : List (String × MachineState)} (h : statesFragments resolver none taken states = .ok fs) :
    ∃ groups, List.Forall₂ (fun e gs => fragments resolver e.1 e.2 = .ok gs) states groups ∧
      fs = groups.flatten := by
  induction states generalizing taken fs with
  | nil =>
    cases h
    exact ⟨[], .nil, rfl⟩
  | cons entry rest ih =>
    obtain ⟨name, s⟩ := entry
    obtain ⟨gs, hHead, taken', -, hs, hRest, rfl⟩ := statesFragments_cons_eq_ok_iff.mp h
    obtain ⟨groups, hGroups, rfl⟩ := ih hRest
    exact ⟨gs :: groups, .cons hHead hGroups, by rw [List.flatten_cons]⟩

/-- Where no state has the name, the replacement changes nothing. -/
theorem statesFragments_of_not_mem {root : String} {t : TaskState} {states : List (String × State)}
    (h : root ∉ Entries.keys states) (taken : List String) :
    statesFragments resolver (some (root, t)) taken states =
      statesFragments resolver none taken states := by
  induction states generalizing taken with
  | nil => rfl
  | cons entry rest ih =>
    obtain ⟨name, s⟩ := entry
    rw [Entries.keys_cons, List.mem_cons, not_or] at h
    simp only [statesFragments, replacementOf, if_neg h.1, ih h.2]

/-- A state that is replaced by a task is encoded as if the task stood there. -/
theorem statesFragments_insert {root : String} {t : TaskState} {states : List (String × State)}
    (hRoot : root ∈ Entries.keys states) {taken : List String} {fs : List (String × MachineState)}
    (h : statesFragments resolver (some (root, t)) taken states = .ok fs) :
    statesFragments resolver none taken (Entries.insert root (.task t) states) = .ok fs := by
  induction states generalizing taken fs with
  | nil => cases hRoot
  | cons entry rest ih =>
    obtain ⟨name, s⟩ := entry
    obtain ⟨gs, hHead, taken', hClaim, hs, hRest, rfl⟩ := statesFragments_cons_eq_ok_iff.mp h
    rw [Entries.insert]
    split
    · rename_i hName
      subst hName
      rw [replacedFragments, replacementOf, if_pos rfl] at hHead
      obtain ⟨address, -, rfl⟩ := taskFragments_eq_ok_iff.mp hHead
      obtain ⟨-, -, rfl⟩ := claimNames_eq_ok hClaim
      -- The name is taken by now, and a second state under it would take it again.
      have hOnce : name ∉ Entries.keys rest := by
        intro hAgain
        obtain ⟨⟨_, s'⟩, hMem, rfl⟩ := List.mem_map.mp hAgain
        obtain ⟨-, hNew, hIn⟩ := statesFragments_eq_ok hRest
        obtain ⟨gs', hGs', hSub⟩ := hIn _ s' hMem
        rw [replacedFragments, replacementOf, if_pos rfl] at hGs'
        obtain ⟨address', -, rfl⟩ := taskFragments_eq_ok_iff.mp hGs'
        exact hNew _ (List.mem_map_of_mem (hSub _ List.mem_cons_self)) (by simp)
      rw [statesFragments_of_not_mem hOnce] at hRest
      exact statesFragments_cons_eq_ok_iff.mpr ⟨_, hHead, _, hClaim, hs, hRest, rfl⟩
    · rename_i hName
      refine statesFragments_cons_eq_ok_iff.mpr ⟨gs, ?_, taken', hClaim, hs, ?_, rfl⟩
      · rw [replacedFragments, replacementOf, if_neg (Ne.symm hName)] at hHead
        exact hHead
      · exact ih ((List.mem_cons.mp hRoot).resolve_left (Ne.symm hName)) hRest

/-! ## Machines -/

/-- The machine has the fragments of every state of the workflow. -/
structure Machine.Encodes (resolver : Resolver) (m : Machine) (w : Workflow) : Prop where
  startAt : m.startAt = w.root
  states : ∀ name s, w.state? name = some s → ∃ fs, fragments resolver name s = .ok fs ∧
    ∀ k ms, (k, ms) ∈ fs → Entries.get? k m.states = some ms

theorem Machine.encodes_of_statesFragments {w : Workflow} {fs : List (String × MachineState)}
    (h : statesFragments resolver none [] w.states = .ok fs) :
    (Machine.mk w.root fs).Encodes resolver w := by
  obtain ⟨hNodup, -, hIn⟩ := statesFragments_eq_ok h
  refine ⟨rfl, fun name s hs => ?_⟩
  obtain ⟨gs, hGs, hSub⟩ := hIn name s (Workflow.mem_states hs)
  exact ⟨gs, hGs, fun k ms hMem => Entries.get?_of_mem (hSub _ hMem) hNodup⟩

theorem Workflow.machine_eq_ok_iff {w : Workflow} {m : Machine} :
    w.machine resolver = .ok m ↔
      ∃ fs, statesFragments resolver none [] w.states = .ok fs ∧ ⟨w.root, fs⟩ = m := by
  rw [Workflow.machine]
  simp only [bind_eq_ok_iff, pure_eq_ok_iff]

theorem Workflow.encodes_machine {w : Workflow} {m : Machine} (h : w.machine resolver = .ok m) :
    m.Encodes resolver w := by
  obtain ⟨fs, hStates, rfl⟩ := Workflow.machine_eq_ok_iff.mp h
  exact Machine.encodes_of_statesFragments hStates

/-! ## Fragments of each kind of state -/

/-- The machine that is one call of this resource. -/
def Machine.single (activity resource : String) : Machine :=
  ⟨activity, [(activity, .task resource none)]⟩

theorem singleTask_eq_ok_iff {activity : String} {m : Machine} :
    singleTask resolver activity = .ok m ↔
      ∃ address, resolver.resolve activity = some address ∧
        Machine.single activity address = m := by
  rw [singleTask, taskState]
  simp only [bind_eq_ok_iff, pure_eq_ok_iff, addressOf_eq_ok_iff]
  constructor
  · rintro ⟨-, ⟨address, hAddress, rfl⟩, rfl⟩
    exact ⟨address, hAddress, rfl⟩
  · rintro ⟨address, hAddress, rfl⟩
    exact ⟨_, ⟨address, hAddress, rfl⟩, rfl⟩

/-- The chain of a repeat is made of the tasks of its calls. -/
theorem forall₂_of_chainFragments {tasks : List (String × TaskState)}
    {fs : List (String × MachineState)} (h : chainFragments resolver tasks = .ok fs) :
    List.Forall₂ (fun task f => ∃ address, resolver.resolve task.2.activity = some address ∧
      f = (task.1, .task address task.2.next)) tasks fs := by
  induction tasks generalizing fs with
  | nil =>
    cases h
    exact .nil
  | cons entry rest ih =>
    obtain ⟨name, t⟩ := entry
    rw [chainFragments] at h
    obtain ⟨gs, hGs, hs, hHs, hPure⟩ := by simpa only [bind_eq_ok_iff] using h
    cases pure_eq_ok_iff.mp hPure
    obtain ⟨address, hAddress, rfl⟩ := taskFragments_eq_ok_iff.mp hGs
    exact .cons ⟨address, hAddress, rfl⟩ (ih hHs)

theorem chainFragments_eq_ok {tasks : List (String × TaskState)} {fs : List (String × MachineState)}
    (h : chainFragments resolver tasks = .ok fs) : ∀ name t, (name, t) ∈ tasks →
      ∃ address, resolver.resolve t.activity = some address ∧
      (name, .task address t.next) ∈ fs := by
  intro name t hMem
  obtain ⟨f, hf, address, hAddress, rfl⟩ := exists_of_forall₂ (forall₂_of_chainFragments h) hMem
  exact ⟨address, hAddress, hf⟩

theorem loopFragments_eq_ok_iff {name : String} {l : LoopState}
    {fs : List (String × MachineState)} :
    loopFragments resolver name l = .ok fs ↔
      ∃ address, resolver.resolve l.activity = some address ∧
        [(name,
          .map (.path l.array) [] (Machine.single l.activity address) (some 1) .dropped l.next)] =
          fs := by
  rw [loopFragments]
  simp only [bind_eq_ok_iff, pure_eq_ok_iff, singleTask_eq_ok_iff]
  constructor
  · rintro ⟨-, ⟨address, hAddress, rfl⟩, rfl⟩
    exact ⟨address, hAddress, rfl⟩
  · rintro ⟨address, hAddress, rfl⟩
    exact ⟨_, ⟨address, hAddress, rfl⟩, rfl⟩

/-- The machine runs the body of a map. -/
def Machine.EncodesBody (resolver : Resolver) (m : Machine) : MapBody → Prop
  | .activity name =>
    ∃ address, resolver.resolve name = some address ∧ m = Machine.single name address
  | .workflow w => m.Encodes resolver w

theorem bodyMachine_workflow (w : Workflow) :
    bodyMachine resolver (.workflow w) = w.machine resolver := by
  cases w
  rfl

theorem bodyMachine_eq_ok {body : MapBody} {m : Machine} (h : bodyMachine resolver body = .ok m) :
    m.EncodesBody resolver body := by
  cases body with
  | activity name =>
    obtain ⟨address, hAddress, rfl⟩ := singleTask_eq_ok_iff.mp h
    exact ⟨address, hAddress, rfl⟩
  | workflow w =>
    rw [bodyMachine_workflow] at h
    exact Workflow.encodes_machine h

theorem fragments_map_eq_ok_iff {name : String} {m : MapState} {fs : List (String × MachineState)} :
    fragments resolver name (.map m) = .ok fs ↔
      ∃ iterator, bodyMachine resolver m.body = .ok iterator ∧
      [(name, mapState m iterator (.place (.path m.array)) m.next)] = fs := by
  obtain ⟨body, array, commonParams, maxConcurrency, next⟩ := m
  rw [fragments]
  simp only [bind_eq_ok_iff, pure_eq_ok_iff]

theorem fragments_map_eq_ok {name : String} {m : MapState} {fs : List (String × MachineState)}
    (h : fragments resolver name (.map m) = .ok fs) :
    ∃ iterator, iterator.EncodesBody resolver m.body ∧
      fs = [(name, mapState m iterator (.place (.path m.array)) m.next)] := by
  obtain ⟨iterator, hBody, rfl⟩ := fragments_map_eq_ok_iff.mp h
  exact ⟨iterator, bodyMachine_eq_ok hBody, rfl⟩

/-- The machine runs a branch: its workflow, or the rest of it for each element
of the map at its root. -/
def Machine.EncodesBranch (resolver : Resolver) (machine : Machine) (b : Branch) : Prop :=
  (∃ t, b.workflow.rootState? = some (.task t) ∧ machine.Encodes resolver b.workflow) ∨
    ∃ m activity iterator, b.workflow.rootState? = some (.map m) ∧ m.body = .activity activity ∧
      machine = mapBranch b.workflow.root m iterator ∧
      match b.elementWorkflow with
      | some w => iterator.Encodes resolver w
      | none => iterator.EncodesBody resolver (.activity activity)

/-- The machine is put together around the one that each element goes through in a branch
that starts with a map. -/
def Machine.OfMapBranch (resolver : Resolver) (machine : Machine) (b : Branch) : Prop :=
  ∃ m activity iterator, b.workflow.rootState? = some (.map m) ∧ m.body = .activity activity ∧
    machine = mapBranch b.workflow.root m iterator ∧
    match b.elementWorkflow with
    | some w => w.machine resolver = .ok iterator
    | none => singleTask resolver activity = .ok iterator

/-- The four states of a branch that starts with a map have different names,
whatever its root is called. -/
theorem nodup_keys_mapBranch (root : String) (m : MapState) (iterator : Machine) :
    (Entries.keys (mapBranch root m iterator).states).Nodup := by
  have hRoot : ∀ suffix : String, suffix ≠ "" → root ≠ root ++ suffix := by
    intro suffix hSuffix hEq
    exact hSuffix (String.append_eq_left_iff.mp hEq.symm)
  simp [mapBranch, hRoot]

/-- The machine of a branch that starts with a task is that of its workflow. -/
theorem branchMachine_cases {name : String} {b : Branch} {machine : Machine}
    (h : branchMachine resolver name b = .ok machine) :
    (∃ t, b.workflow.rootState? = some (.task t) ∧ b.workflow.machine resolver = .ok machine) ∨
      machine.OfMapBranch resolver b := by
  obtain ⟨bname, root, states⟩ := b
  rw [branchMachine] at h
  cases hRoot : Entries.get? root states with
  | none => simp [hRoot] at h
  | some s =>
    rw [hRoot] at h
    cases s with
    | task t => exact .inl ⟨t, hRoot, h⟩
    | map m =>
      dsimp only at h
      cases hBody : m.body with
      | workflow w => simp [hBody] at h
      | activity activity =>
        rw [hBody] at h
        refine .inr ⟨m, activity, ?_⟩
        rw [Branch.elementWorkflow]
        cases hTask : Branch.elementTask? ⟨bname, ⟨root, states⟩⟩ with
        | none =>
          simp only [hTask, bind_eq_ok_iff, pure_eq_ok_iff] at h
          obtain ⟨iterator, hIterator, rfl⟩ := h
          exact ⟨iterator, hRoot, hBody, rfl, hIterator⟩
        | some t =>
          simp only [hTask, bind_eq_ok_iff, pure_eq_ok_iff] at h
          obtain ⟨fs, hStates, -, rfl, rfl⟩ := h
          have hDeclared : root ∈ Entries.keys states :=
            List.mem_map_of_mem (Entries.mem_of_get? hRoot)
          exact ⟨_, hRoot, hBody, rfl,
            Workflow.machine_eq_ok_iff.mpr ⟨fs, statesFragments_insert hDeclared hStates, rfl⟩⟩
    | _ => simp at h

theorem branchMachine_eq_ok {name : String} {b : Branch} {machine : Machine}
    (h : branchMachine resolver name b = .ok machine) : machine.EncodesBranch resolver b := by
  rcases branchMachine_cases h with ⟨t, hRoot, hMachine⟩
    | ⟨m, activity, iterator, hRoot, hBody, hEq, hIterator⟩
  · exact .inl ⟨t, hRoot, Workflow.encodes_machine hMachine⟩
  · refine .inr ⟨m, activity, iterator, hRoot, hBody, hEq, ?_⟩
    cases hElement : b.elementWorkflow with
    | none =>
      rw [hElement] at hIterator
      exact @bodyMachine_eq_ok resolver (.activity activity) _ hIterator
    | some w =>
      rw [hElement] at hIterator
      exact Workflow.encodes_machine hIterator

theorem branchMachines_eq_ok_iff {name : String} {branches : List Branch}
    {machines : List Machine} :
    branchMachines resolver name branches = .ok machines ↔
      List.Forall₂ (fun b m => branchMachine resolver name b = .ok m) branches machines := by
  induction branches generalizing machines with
  | nil =>
    rw [branchMachines, List.forall₂_nil_left_iff]
    exact ⟨fun h => by cases h; rfl, fun h => by rw [h]⟩
  | cons b rest ih =>
    rw [branchMachines, List.forall₂_cons_left_iff]
    simp only [bind_eq_ok_iff, pure_eq_ok_iff, ih]
    constructor
    · rintro ⟨m, hHead, ms, hRest, rfl⟩
      exact ⟨m, ms, hHead, hRest, rfl⟩
    · rintro ⟨m, ms, hHead, hRest, rfl⟩
      exact ⟨m, hHead, ms, hRest, rfl⟩

theorem fragments_parallel_eq_ok_iff {name : String} {p : ParallelState}
    {fs : List (String × MachineState)} :
    fragments resolver name (.parallel p) = .ok fs ↔
      ∃ machines,
        List.Forall₂ (fun b m => branchMachine resolver name b = .ok m) p.branches machines ∧
        [(name, .parallel machines (selector [] 0 p.branches) p.next)] = fs := by
  obtain ⟨branches, next⟩ := p
  rw [fragments]
  simp only [bind_eq_ok_iff, pure_eq_ok_iff, branchMachines_eq_ok_iff]

theorem fragments_parallel_eq_ok {name : String} {p : ParallelState}
    {fs : List (String × MachineState)} (h : fragments resolver name (.parallel p) = .ok fs) :
    ∃ machines, List.Forall₂ (Machine.EncodesBranch resolver) machines p.branches ∧
      fs = [(name, .parallel machines (selector [] 0 p.branches) p.next)] := by
  obtain ⟨machines, hBranches, rfl⟩ := fragments_parallel_eq_ok_iff.mp h
  exact ⟨machines, (hBranches.imp fun b m => branchMachine_eq_ok).flip, rfl⟩

end Orchestration
