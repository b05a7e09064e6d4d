import Orchestration.Proofs.StateMachine.Encoding

/-!
# State machines are closed

A machine refers to its states by name, and so do the machines inside its states to theirs. The
document of a machine is a JSON value; `Json.HoldsMachine` finds the objects of machines in it, the
iterators and branches of states at every depth.

* `Machine.Origin`: a machine inside the machine of a workflow is that of a workflow inside it, one
  call, or put together for a branch that starts with a map. The last kind has names of its own:
  those of the root and of what sorts out how many results there are.
* `Json.Closed`: the references of an object are to states of that object.
* `StateMachine.Collects`: an object has just the fragments of the states of a workflow, and no
  fragment is lost where they are collected by name.
* `Workflow.machine_closed`: so it is with every object in the document of a valid workflow.
-/

namespace Orchestration

open StateMachine

variable {resolver : Resolver}

/-! ## Machines inside machines -/

/-- The machines that a state runs. -/
def MachineState.machines : MachineState → List Machine
  | .map _ _ iterator _ _ _ => [iterator]
  | .parallel branches _ _ => branches
  | .task _ _ | .choice _ _ | .pass _ | .succeed => []

/-- The machine itself, the machines that its states run, and so on inwards. -/
inductive Machine.Holds (m : Machine) : Machine → Prop
  | refl : m.Holds m
  | inner {n k : Machine} {name : String} {s : MachineState} (h : m.Holds n)
    (hState : (name, s) ∈ n.states) (hInner : k ∈ s.machines) : m.Holds k

theorem Machine.Holds.trans {m n k : Machine} (h : m.Holds n) (hInner : n.Holds k) : m.Holds k := by
  induction hInner with
  | refl => exact h
  | inner _ hState hMachine ih => exact .inner ih hState hMachine

/-- The value itself, the iterators and branches of the states that it has, and so on inwards. -/
inductive Json.HoldsMachine (doc : Json) : Json → Prop
  | refl : doc.HoldsMachine doc
  | iterator {v s iterator : Json} {states : List (String × Json)} {name : String}
    (h : doc.HoldsMachine v) (hStates : v.field? "States" = some (.obj states))
      (hState : (name, s) ∈ states)
    (hIterator : s.field? "Iterator" = some iterator) : doc.HoldsMachine iterator
  | branch {v s item : Json} {states : List (String × Json)} {items : List Json} {name : String}
    (h : doc.HoldsMachine v) (hStates : v.field? "States" = some (.obj states))
    (hState : (name, s) ∈ states) (hBranches : s.field? "Branches" = some (.arr items))
    (hItem : item ∈ items) : doc.HoldsMachine item

theorem machineStatesToJson_eq_map (fs : List (String × MachineState)) :
    machineStatesToJson fs = fs.map fun f => (f.1, f.2.toJson) := by
  induction fs with
  | nil => rfl
  | cons f rest ih => rw [machineStatesToJson, ih, List.map_cons]

theorem keys_machineStatesToJson (fs : List (String × MachineState)) :
    Entries.keys (machineStatesToJson fs) = Entries.keys fs := by
  rw [machineStatesToJson_eq_map, Entries.keys, List.map_map]
  rfl

theorem machinesToJson_eq_map (ms : List Machine) : machinesToJson ms = ms.map Machine.toJson := by
  induction ms with
  | nil => rfl
  | cons m rest ih => rw [machinesToJson, ih, List.map_cons]

theorem Machine.toJson_eq (m : Machine) :
    m.toJson =
      .obj [("StartAt", .str m.startAt), ("States", .obj (machineStatesToJson m.states))] := by
  cases m
  rfl

/-- An iterator in the value of a state is the value of a machine that the state runs. -/
theorem MachineState.mem_machines_of_iterator {s : MachineState} {v : Json}
    (h : s.toJson.field? "Iterator" = some v) : ∃ m ∈ s.machines, v = m.toJson := by
  cases s with
  | map items parameters iterator maxConcurrency result next =>
    refine ⟨iterator, List.mem_singleton_self _, ?_⟩
    cases parameters <;> cases maxConcurrency <;> cases result <;> cases next <;>
      exact (Option.some.inj h).symm
  | task resource next => cases next <;> cases h
  | parallel branches selector next => cases next <;> cases h
  | _ => cases h

/-- So is each branch. -/
theorem MachineState.mem_machines_of_branches {s : MachineState} {items : List Json}
    (h : s.toJson.field? "Branches" = some (.arr items)) {v : Json} (hv : v ∈ items) :
    ∃ m ∈ s.machines, v = m.toJson := by
  cases s with
  | parallel branches selector next =>
    have hItems : machinesToJson branches = items := by
      cases next <;> exact Json.arr.inj (Option.some.inj h)
    rw [← hItems, machinesToJson_eq_map] at hv
    obtain ⟨m, hm, rfl⟩ := List.mem_map.mp hv
    exact ⟨m, hm, rfl⟩
  | task resource next => cases next <;> cases h
  | map items' parameters iterator maxConcurrency result next =>
    cases parameters <;> cases maxConcurrency <;> cases result <;> cases next <;> cases h
  | _ => cases h

/-- The objects of machines in a document are those of the machines inside. -/
theorem Machine.holds_of_holdsMachine {m : Machine} {v : Json} (h : m.toJson.HoldsMachine v) :
    ∃ n, m.Holds n ∧ v = n.toJson := by
  -- Both kinds of steps inwards go through a state of the machine that the
  -- object before is that of.
  have inside : ∀ {n : Machine} {states : List (String × Json)} {name : String} {s : Json},
      n.toJson.field? "States" = some (.obj states) → (name, s) ∈ states →
        ∃ ms, (name, ms) ∈ n.states ∧ s = ms.toJson := by
    intro n states name s hStates hState
    rw [n.toJson_eq] at hStates
    obtain rfl := Json.obj.inj (Option.some.inj hStates)
    rw [machineStatesToJson_eq_map] at hState
    obtain ⟨⟨name', ms⟩, hMem, hEq⟩ := List.mem_map.mp hState
    cases hEq
    exact ⟨ms, hMem, rfl⟩
  induction h with
  | refl => exact ⟨m, .refl, rfl⟩
  | iterator _ hStates hState hIterator ih =>
    obtain ⟨n, hn, rfl⟩ := ih
    obtain ⟨ms, hMem, rfl⟩ := inside hStates hState
    obtain ⟨k, hk, rfl⟩ := MachineState.mem_machines_of_iterator hIterator
    exact ⟨k, .inner hn hMem hk, rfl⟩
  | branch _ hStates hState hBranches hItem ih =>
    obtain ⟨n, hn, rfl⟩ := ih
    obtain ⟨ms, hMem, rfl⟩ := inside hStates hState
    obtain ⟨k, hk, rfl⟩ := MachineState.mem_machines_of_branches hBranches hItem
    exact ⟨k, .inner hn hMem hk, rfl⟩

/-! ## What machines are made of -/

/-- What a machine inside the machine of a workflow is made of. -/
inductive Machine.Origin (resolver : Resolver) (w : Workflow) (n : Machine) : Prop
  /-- The workflow or one inside it. -/
  | level {u : Workflow} (hReaches : w.Reaches u) (hMachine : u.machine resolver = .ok n)
  | call {activity : String} (hSingle : singleTask resolver activity = .ok n)
  /-- A branch that starts with a map. -/
  | branch {u : Workflow} {name : String} {p : ParallelState} {b : Branch} (hReaches : w.Reaches u)
    (hState : (name, .parallel p) ∈ u.states) (hBranch : b ∈ p.branches)
      (hMachine : n.OfMapBranch resolver b)

theorem Machine.not_mem_machines_of_singleTask {activity name : String} {n k : Machine}
    {s : MachineState} (h : singleTask resolver activity = .ok n) (hState : (name, s) ∈ n.states) :
    k ∉ s.machines := by
  obtain ⟨address, -, rfl⟩ := singleTask_eq_ok_iff.mp h
  obtain ⟨rfl, rfl⟩ := Prod.mk.inj (List.mem_singleton.mp hState)
  simp [MachineState.machines]

/-- The fragments of a state run machines of the workflows that the state enters, of
calls and of branches. -/
theorem origin_of_fragments {w u : Workflow} {name : String} {s : State} (hReaches : w.Reaches u)
    (hState : (name, s) ∈ u.states) {gs : List (String × MachineState)}
    (h : fragments resolver name s = .ok gs) {f : String × MachineState} (hf : f ∈ gs) {k : Machine}
    (hk : k ∈ f.2.machines) : k.Origin resolver w := by
  cases s with
  | task t =>
    obtain ⟨address, -, rfl⟩ := taskFragments_eq_ok_iff.mp h
    obtain rfl := List.mem_singleton.mp hf
    cases hk
  | «switch» sw =>
    rw [fragments, switchFragments] at h
    obtain ⟨cs, -, hDefault⟩ := bind_eq_ok_iff.mp h
    split at hDefault <;> cases pure_eq_ok_iff.mp hDefault
    · obtain rfl := List.mem_singleton.mp hf
      cases hk
    · rcases List.mem_cons.mp hf with rfl | hEnd
      · cases hk
      · obtain rfl := List.mem_singleton.mp hEnd
        cases hk
  | map m =>
    obtain ⟨iterator, hBody, rfl⟩ := fragments_map_eq_ok_iff.mp h
    obtain rfl := List.mem_singleton.mp hf
    obtain rfl := List.mem_singleton.mp hk
    cases hm : m.body with
    | activity activity =>
      rw [hm] at hBody
      exact .call hBody
    | workflow body =>
      rw [hm, bodyMachine_workflow] at hBody
      exact .level (.enter hReaches hState (.body hm)) hBody
  | «repeat» r =>
    obtain ⟨task, -, address, -, rfl⟩ := exists_of_forall₂ (forall₂_of_chainFragments h).flip hf
    cases hk
  | loop l =>
    obtain ⟨address, hAddress, rfl⟩ := loopFragments_eq_ok_iff.mp h
    obtain rfl := List.mem_singleton.mp hf
    obtain rfl := List.mem_singleton.mp hk
    exact .call (singleTask_eq_ok_iff.mpr ⟨address, hAddress, rfl⟩)
  | parallel p =>
    obtain ⟨machines, hBranches, rfl⟩ := fragments_parallel_eq_ok_iff.mp h
    obtain rfl := List.mem_singleton.mp hf
    obtain ⟨b, hb, hMachine⟩ := exists_of_forall₂ hBranches.flip hk
    rcases branchMachine_cases hMachine with ⟨t, -, hOwn⟩ | hMap
    · exact .level (.enter hReaches hState (.branch hb)) hOwn
    · exact .branch hReaches hState hb hMap

/-- The machine of a level runs machines of the workflows that its states enter, of
calls and of branches. -/
theorem origin_of_machine {w u : Workflow} {n k : Machine} (hReaches : w.Reaches u)
    (h : u.machine resolver = .ok n) {name : String} {s : MachineState}
    (hState : (name, s) ∈ n.states) (hk : k ∈ s.machines) : k.Origin resolver w := by
  obtain ⟨fs, hStates, rfl⟩ := Workflow.machine_eq_ok_iff.mp h
  obtain ⟨groups, hGroups, rfl⟩ := statesFragments_eq_flatten hStates
  obtain ⟨gs, hGs, hf⟩ := List.mem_flatten.mp hState
  obtain ⟨e, he, hEncode⟩ := exists_of_forall₂ hGroups.flip hGs
  exact origin_of_fragments hReaches he hEncode hf hk

/-- The only machine that the machine of such a branch runs is the one that
its elements go through. -/
theorem origin_of_mapBranch {w u : Workflow} {name : String} {p : ParallelState} {b : Branch}
    (hReaches : w.Reaches u) (hParallel : (name, .parallel p) ∈ u.states) (hBranch : b ∈ p.branches)
    {n k : Machine} (h : n.OfMapBranch resolver b) {key : String} {s : MachineState}
    (hState : (key, s) ∈ n.states) (hk : k ∈ s.machines) : k.Origin resolver w := by
  obtain ⟨m, activity, iterator, -, -, rfl, hIterator⟩ := h
  have hIs : k = iterator := by
    simp only [mapBranch, List.mem_cons, Prod.mk.injEq, List.not_mem_nil, or_false] at hState
    rcases hState with ⟨-, rfl⟩ | ⟨-, rfl⟩ | ⟨-, rfl⟩ | ⟨-, rfl⟩
    · exact List.mem_singleton.mp hk
    · cases hk
    · cases hk
    · cases hk
  subst hIs
  cases hElement : b.elementWorkflow with
  | none =>
    rw [hElement] at hIterator
    exact .call hIterator
  | some element =>
    rw [hElement] at hIterator
    exact .level (.enter hReaches hParallel (.element hBranch hElement)) hIterator

theorem Workflow.origin_of_holds {w : Workflow} {m n : Machine}
    (hMachine : w.machine resolver = .ok m) (h : m.Holds n) : n.Origin resolver w := by
  induction h with
  | refl => exact .level (.refl w) hMachine
  | inner _ hState hInner ih =>
    cases ih with
    | level hReaches hOwn => exact origin_of_machine hReaches hOwn hState hInner
    | call hSingle => exact absurd hInner (Machine.not_mem_machines_of_singleTask hSingle hState)
    | branch hReaches hParallel hBranch hMap =>
      exact origin_of_mapBranch hReaches hParallel hBranch hMap hState hInner

/-! ## References -/

/-- The values under `Next` in the choices of a state, under its own `Next`,
and under its `Default`. -/
def Json.references (s : Json) : List Json :=
  (((s.field? "Choices").bind items?).getD []).filterMap (field? "Next") ++
    (s.field? "Next").toList ++ (s.field? "Default").toList

/-- How many fields of a state say how it is left. -/
def Json.exits (s : Json) : Nat :=
  (Entries.keys (s.fields?.getD [])).countP fun k => k == "Next" || k == "End"

/-- The start is one of the states, and so is each state that they refer to. States that do
something or run something say once how they are left. -/
structure Json.ClosedStates (start : String) (states : List (String × Json)) : Prop where
  distinct : (Entries.keys states).Nodup
  start : start ∈ Entries.keys states
  references : ∀ s ∈ states, ∀ v ∈ s.2.references, ∃ t, v = .str t ∧ t ∈ Entries.keys states
  exits : ∀ s ∈ states, ∀ kind ∈ ["Task", "Map", "Parallel", "Pass"],
    s.2.field? "Type" = some (.str kind) → s.2.exits = 1

/-- The object of a machine all of whose references are to states of its own. -/
def Json.Closed (v : Json) : Prop :=
  ∃ start states, v = .obj [("StartAt", .str start), ("States", .obj states)] ∧
    ClosedStates start states

theorem MachineState.exits_toJson {s : MachineState} {kind : String}
    (hKind : kind ∈ ["Task", "Map", "Parallel", "Pass"])
    (h : s.toJson.field? "Type" = some (.str kind)) :
    s.toJson.exits = 1 := by
  cases s with
  | task resource next => cases next <;> rfl
  | choice choices default =>
    obtain rfl : "Choice" = kind := Json.str.inj (Option.some.inj h)
    simp at hKind
  | map items parameters iterator maxConcurrency result next =>
    cases parameters <;> cases maxConcurrency <;> cases result <;> cases next <;> rfl
  | parallel branches selector next => cases next <;> rfl
  | pass input => rfl
  | succeed =>
    obtain rfl : "Succeed" = kind := Json.str.inj (Option.some.inj h)
    simp at hKind

theorem references_task (resource : String) (next : Option String) :
    (MachineState.task resource next).toJson.references = next.toList.map Json.str := by
  cases next <;> rfl

theorem references_map (items : Reference) (parameters : List (String × ParameterSource))
    (iterator : Machine) (maxConcurrency : Option Nat) (result : ResultPlace)
    (next : Option String) :
    (MachineState.map items parameters iterator maxConcurrency result next).toJson.references =
      next.toList.map Json.str := by
  cases parameters <;> cases maxConcurrency <;> cases result <;> cases next <;> rfl

theorem references_parallel (branches : List Machine) (selector : List (String × Reference))
    (next : Option String) :
    (MachineState.parallel branches selector next).toJson.references =
      next.toList.map Json.str := by
  cases next <;> rfl

/-- A choice refers to the states of its rules and to its default, if no
comparator is in the way. -/
theorem references_choice {cs : List Choice} {default : String}
    (h : ∀ c ∈ cs, c.toJson.field? "Next" = some (.str c.next)) :
    (MachineState.choice cs default).toJson.references =
      (cs.map Choice.next ++ [default]).map Json.str := by
  have hRules : (cs.map Choice.toJson).filterMap (Json.field? "Next") = cs.map fun c =>
      Json.str c.next := by
    rw [List.filterMap_map, ← List.filterMap_eq_map]
    exact List.filterMap_congr h
  calc (MachineState.choice cs default).toJson.references
      = (cs.map Choice.toJson).filterMap (Json.field? "Next") ++ [] ++ [Json.str default] := rfl
    _ = (cs.map Choice.next ++ [default]).map Json.str := by
      rw [hRules, List.append_nil, List.map_append, List.map_map]
      rfl

/-- The comparator that is chosen for a value is no field that says how a choice goes on. -/
theorem comparator?_ne_next {op : Comparison} {val : Json} {comparator : String}
    (h : comparator? op val = some comparator) : comparator ≠ "Next" := by
  unfold comparator? at h
  split at h
  · cases h
    cases op <;> decide
  · cases h
    cases op <;> decide
  · cases h
    cases op <;> decide
  · split at h <;> cases h
    decide
  · cases h

theorem next_of_rule? {c : Case} {rule : Rule} (h : rule? c = some rule) (next : String) :
    (Choice.mk rule next).toJson.field? "Next" = some (.str next) := by
  unfold rule? at h
  split at h
  · cases h
    rfl
  · obtain ⟨comparator, hComparator, rfl⟩ := Option.map_eq_some_iff.mp h
    have hNe := comparator?_ne_next hComparator
    simp [Choice.toJson, Rule.fields, Json.field?, Entries.get?, hNe]

/-- The choices of a switch go on where its cases go on. -/
theorem choices_eq_ok {name : String} {cases' : List Case} {cs : List Choice}
    (h : choices name cases' = .ok cs) :
    cs.map Choice.next = cases'.map Case.next ∧
      ∀ c ∈ cs, c.toJson.field? "Next" = some (.str c.next) := by
  induction cases' generalizing cs with
  | nil =>
    cases h
    simp
  | cons c rest ih =>
    rw [choices] at h
    cases hRule : rule? c with
    | none => simp [hRule] at h
    | some rule =>
      simp only [hRule, bind_eq_ok_iff, pure_eq_ok_iff] at h
      obtain ⟨cs', hRest, rfl⟩ := h
      obtain ⟨hNexts, hFields⟩ := ih hRest
      refine ⟨by rw [List.map_cons, List.map_cons, hNexts], List.forall_mem_cons.mpr ⟨?_, hFields⟩⟩
      exact next_of_rule? hRule c.next

/-! ## Fragments of a state -/

/-- The first fragment of a state has its name. All references of its fragments are to targets of
the state or among the fragments. -/
structure StateMachine.ClosedFragments (name : String) (s : State)
    (gs : List (String × MachineState)) :
    Prop where
  first : ∃ ms rest, gs = (name, ms) :: rest
  references : ∀ f ∈ gs, ∀ v ∈ f.2.toJson.references, ∃ t, v = .str t ∧
    (t ∈ s.targets ∨ t ∈ Entries.keys gs)

/-- A single fragment that goes on to the successor of the state. -/
theorem closedFragments_single {name : String} {s : State} {ms : MachineState}
    {next : Option String} (hReferences : ms.toJson.references = next.toList.map Json.str)
    (hTargets : s.targets = next.toList) :
    ClosedFragments name s [(name, ms)] := by
  refine ⟨⟨ms, [], rfl⟩, fun f hf v hv => ?_⟩
  obtain rfl := List.mem_singleton.mp hf
  rw [hReferences] at hv
  obtain ⟨t, ht, rfl⟩ := List.mem_map.mp hv
  exact ⟨t, rfl, .inl (hTargets ▸ ht)⟩

theorem closedFragments_switch {name : String} {s : SwitchState} {gs : List (String × MachineState)}
    (h : switchFragments name s = .ok gs) : ClosedFragments name (.switch s) gs := by
  obtain ⟨cs, hChoices, hDefault⟩ := bind_eq_ok_iff.mp h
  obtain ⟨hNexts, hFields⟩ := choices_eq_ok hChoices
  have hCases : ∀ t ∈ cs.map Choice.next, t ∈ (State.switch s).targets := by
    rw [hNexts]
    exact fun t ht => List.mem_append_left _ ht
  cases hSome : s.default with
  | some default =>
    rw [hSome] at hDefault
    cases pure_eq_ok_iff.mp hDefault
    refine ⟨⟨_, _, rfl⟩, fun f hf v hv => ?_⟩
    obtain rfl := List.mem_singleton.mp hf
    rw [references_choice hFields] at hv
    obtain ⟨t, ht, rfl⟩ := List.mem_map.mp hv
    refine ⟨t, rfl, .inl ?_⟩
    rcases List.mem_append.mp ht with hCase | hLast
    · exact hCases t hCase
    · refine List.mem_append_right _ ?_
      rw [hSome, List.mem_singleton.mp hLast]
      exact List.mem_singleton_self _
  | none =>
    rw [hSome] at hDefault
    cases pure_eq_ok_iff.mp hDefault
    refine ⟨⟨_, _, rfl⟩, fun f hf v hv => ?_⟩
    rcases List.mem_cons.mp hf with rfl | hEnd
    · rw [references_choice hFields] at hv
      obtain ⟨t, ht, rfl⟩ := List.mem_map.mp hv
      refine ⟨t, rfl, ?_⟩
      rcases List.mem_append.mp ht with hCase | hLast
      · exact .inl (hCases t hCase)
      · rw [List.mem_singleton.mp hLast]
        exact .inr (List.mem_cons_of_mem _ List.mem_cons_self)
    · obtain rfl := List.mem_singleton.mp hEnd
      cases hv

theorem keys_of_chainFragments {tasks : List (String × TaskState)}
    {fs : List (String × MachineState)} (h : chainFragments resolver tasks = .ok fs) :
    Entries.keys fs = tasks.map Prod.fst := by
  have hEqual : List.Forall₂ Eq (tasks.map Prod.fst) (fs.map Prod.fst) := by
    rw [List.forall₂_map_left_iff, List.forall₂_map_right_iff]
    refine (forall₂_of_chainFragments h).imp fun task f hf => ?_
    obtain ⟨address, -, rfl⟩ := hf
    rfl
  rw [List.forall₂_eq_eq_eq] at hEqual
  exact hEqual.symm

/-- Each call of a repeat goes on to the next one, and the last one to the successor. -/
theorem closedFragments_repeat {name : String} {r : RepeatState} (hCount : r.count ≠ 0)
    {gs : List (String × MachineState)} (h : chainFragments resolver (r.unrolled name) = .ok gs) :
    ClosedFragments name (.repeat r) gs := by
  have hKeys : Entries.keys gs = (List.range r.count).map (unrolledName name) := by
    rw [keys_of_chainFragments h, RepeatState.unrolled, List.map_map]
    rfl
  refine ⟨?_, fun f hf v hv => ?_⟩
  · obtain ⟨count, hSucc⟩ := Nat.exists_eq_succ_of_ne_zero hCount
    rw [hSucc, List.range_succ_eq_map, List.map_cons, unrolledName, if_pos rfl] at hKeys
    cases gs with
    | nil => cases hKeys
    | cons f rest =>
      rw [Entries.keys, List.map_cons] at hKeys
      exact ⟨f.2, rest, by rw [← (List.cons.inj hKeys).1]⟩
  · obtain ⟨task, hTask, address, -, rfl⟩ := exists_of_forall₂ (forall₂_of_chainFragments h).flip hf
    obtain ⟨i, -, rfl⟩ := List.mem_map.mp hTask
    rw [references_task] at hv
    obtain ⟨t, ht, rfl⟩ := List.mem_map.mp hv
    refine ⟨t, rfl, ?_⟩
    dsimp only [RepeatState.unrolledTask] at ht
    split at ht
    · rename_i hMore
      obtain rfl := List.mem_singleton.mp ht
      right
      rw [hKeys]
      exact List.mem_map_of_mem (List.mem_range.mpr hMore)
    · exact .inl ht

theorem closedFragments {name : String} {s : State} (hValid : s.validate name = .ok ())
    {gs : List (String × MachineState)} (h : fragments resolver name s = .ok gs) :
    ClosedFragments name s gs := by
  cases s with
  | task t =>
    obtain ⟨address, -, rfl⟩ := taskFragments_eq_ok_iff.mp h
    exact closedFragments_single (references_task address t.next) rfl
  | «switch» sw => exact closedFragments_switch h
  | map m =>
    obtain ⟨iterator, -, rfl⟩ := fragments_map_eq_ok_iff.mp h
    exact closedFragments_single (references_map _ _ _ _ _ _) rfl
  | «repeat» r => exact closedFragments_repeat (State.validate_repeat_eq_ok_iff.mp hValid) h
  | loop l =>
    obtain ⟨address, -, rfl⟩ := loopFragments_eq_ok_iff.mp h
    exact closedFragments_single (references_map _ _ _ _ _ _) rfl
  | parallel p =>
    obtain ⟨machines, -, rfl⟩ := fragments_parallel_eq_ok_iff.mp h
    exact closedFragments_single (references_parallel _ _ _) rfl

/-! ## Objects of machines -/

theorem Machine.closed_toJson {n : Machine} (hDistinct : (Entries.keys n.states).Nodup)
    (hStart : n.startAt ∈ Entries.keys n.states)
    (hReferences : ∀ f ∈ n.states, ∀ v ∈ f.2.toJson.references,
      ∃ t, v = .str t ∧ t ∈ Entries.keys n.states) : n.toJson.Closed := by
  have hKeys := keys_machineStatesToJson n.states
  refine ⟨n.startAt, machineStatesToJson n.states, n.toJson_eq, ?_, ?_, ?_, ?_⟩
  · rwa [hKeys]
  · rwa [hKeys]
  · intro s hs v hv
    rw [machineStatesToJson_eq_map] at hs
    obtain ⟨f, hf, rfl⟩ := List.mem_map.mp hs
    rw [hKeys]
    exact hReferences f hf v hv
  · intro s hs kind hKind hType
    rw [machineStatesToJson_eq_map] at hs
    obtain ⟨f, -, rfl⟩ := List.mem_map.mp hs
    exact MachineState.exits_toJson hKind hType

/-- The machine of a valid workflow: what its states refer to is among the
states that were encoded. -/
theorem Workflow.closed_machine {u : Workflow} (hValid : u.validate = .ok ()) {n : Machine}
    (h : u.machine resolver = .ok n) : n.toJson.Closed := by
  obtain ⟨hRoot, hStates⟩ := Workflow.validate_eq_ok_iff.mp hValid
  obtain ⟨fs, hFragments, rfl⟩ := Workflow.machine_eq_ok_iff.mp h
  have hDistinct := (statesFragments_eq_ok hFragments).1
  obtain ⟨groups, hGroups, rfl⟩ := statesFragments_eq_flatten hFragments
  have hClosed : ∀ e ∈ u.states, ∀ gs, fragments resolver e.1 e.2 = .ok gs →
      ClosedFragments e.1 e.2 gs :=
    fun e he gs => closedFragments (hStates e.1 e.2 he).2
  have hIn : ∀ gs ∈ groups, ∀ t ∈ Entries.keys gs, t ∈ Entries.keys groups.flatten := by
    intro gs hGs t ht
    obtain ⟨f, hf, rfl⟩ := List.mem_map.mp ht
    exact List.mem_map_of_mem (List.mem_flatten.mpr ⟨gs, hGs, hf⟩)
  have hDeclared : ∀ t ∈ Entries.keys u.states, t ∈ Entries.keys groups.flatten := by
    intro t ht
    obtain ⟨e, he, rfl⟩ := List.mem_map.mp ht
    obtain ⟨gs, hGs, hEncode⟩ := exists_of_forall₂ hGroups he
    obtain ⟨ms, rest, rfl⟩ := (hClosed e he gs hEncode).first
    exact hIn _ hGs _ List.mem_cons_self
  refine Machine.closed_toJson hDistinct (hDeclared _ hRoot) fun f hf v hv => ?_
  obtain ⟨gs, hGs, hOwn⟩ := List.mem_flatten.mp hf
  obtain ⟨e, he, hEncode⟩ := exists_of_forall₂ hGroups.flip hGs
  obtain ⟨t, rfl, hTarget | hFragment⟩ := (hClosed e he gs hEncode).references f hOwn v hv
  · exact ⟨t, rfl, hDeclared t ((hStates e.1 e.2 he).1 t hTarget)⟩
  · exact ⟨t, rfl, hIn gs hGs t hFragment⟩

theorem closed_singleTask {activity : String} {n : Machine}
    (h : singleTask resolver activity = .ok n) :
    n.toJson.Closed := by
  obtain ⟨address, -, rfl⟩ := singleTask_eq_ok_iff.mp h
  refine Machine.closed_toJson (List.nodup_singleton _) List.mem_cons_self fun f hf v hv => ?_
  obtain rfl := List.mem_singleton.mp hf
  cases hv

theorem closed_mapBranch (root : String) (m : MapState) (iterator : Machine) :
    (mapBranch root m iterator).toJson.Closed := by
  refine Machine.closed_toJson (nodup_keys_mapBranch root m iterator) List.mem_cons_self
    fun f hf v hv => ?_
  have hKeys : Entries.keys (mapBranch root m iterator).states =
      [root, root ++ "_shape", root ++ "_single", root ++ "_list"] := rfl
  simp only [hKeys, List.mem_cons, List.not_mem_nil, or_false]
  simp only [mapBranch, List.mem_cons, List.not_mem_nil, or_false] at hf
  rcases hf with rfl | rfl | rfl | rfl
  · rw [mapState, references_map] at hv
    exact ⟨root ++ "_shape", List.mem_singleton.mp hv, .inr (.inl rfl)⟩
  · rw [references_choice fun c hc => by rw [List.mem_singleton.mp hc]; rfl] at hv
    rcases List.mem_cons.mp hv with rfl | hList
    · exact ⟨_, rfl, .inr (.inr (.inl rfl))⟩
    · exact ⟨root ++ "_list", List.mem_singleton.mp hList, .inr (.inr (.inr rfl))⟩
  · cases hv
  · cases hv

theorem Machine.Origin.closed {w : Workflow} (hValid : w.validate = .ok ()) {n : Machine}
    (h : n.Origin resolver w) : n.toJson.Closed := by
  cases h with
  | level hReaches hMachine => exact Workflow.closed_machine (hReaches.validate hValid) hMachine
  | call hSingle => exact closed_singleTask hSingle
  | branch _ _ _ hMap =>
    obtain ⟨m, activity, iterator, -, -, rfl, -⟩ := hMap
    exact closed_mapBranch _ m iterator

/-! ## Fragments that are collected by name -/

/-- The states of the object are just the fragments of the states of the workflow, which come
under different names, and among them each state comes under its own: none is overwritten
where they are collected. -/
structure StateMachine.Collects (resolver : Resolver) (u : Workflow) (groups : List (List Fragment))
    (v : Json) :
    Prop where
  encoded : List.Forall₂ (fun e fs => encodeState resolver e.1 e.2 = .ok fs) u.states groups
  own : List.Forall₂ (fun e fs => ∃ body rest, fs = (e.1, body) :: rest) u.states groups
  distinct : (Entries.keys groups.flatten).Nodup
  assembled : v = assemble u groups.flatten
  states : v.field? "States" = some (.obj groups.flatten)

theorem Workflow.exists_collects {u : Workflow} (hValid : u.validate = .ok ()) {n : Machine}
    (h : u.machine resolver = .ok n) : ∃ groups, Collects resolver u groups n.toJson := by
  obtain ⟨-, hStates⟩ := Workflow.validate_eq_ok_iff.mp hValid
  obtain ⟨fs, hFragments, rfl⟩ := Workflow.machine_eq_ok_iff.mp h
  have hDistinct := (statesFragments_eq_ok hFragments).1
  obtain ⟨groups, hGroups, rfl⟩ := statesFragments_eq_flatten hFragments
  have hFlatten :
      machineStatesToJson groups.flatten = (groups.map machineStatesToJson).flatten := by
    rw [funext machineStatesToJson_eq_map, List.map_flatten]
  rw [← keys_machineStatesToJson, hFlatten] at hDistinct
  refine ⟨groups.map machineStatesToJson, ?_, ?_, hDistinct, ?_, ?_⟩
  · rw [List.forall₂_map_right_iff]
    refine hGroups.imp fun e gs hEncode => ?_
    rw [encodeState, hEncode]
    rfl
  · rw [List.forall₂_map_right_iff]
    refine ((List.forall₂_and_left _ _).mpr ⟨fun e he => he, hGroups⟩).imp fun e gs ⟨he, hEncode⟩ =>
      ?_
    obtain ⟨ms, rest, rfl⟩ := (closedFragments (hStates e.1 e.2 he).2 hEncode).first
    exact ⟨ms.toJson, machineStatesToJson rest, rfl⟩
  · rw [Machine.toJson_eq, assemble, Entries.ofWrites_of_nodup hDistinct, hFlatten]
  · rw [Machine.toJson_eq, hFlatten]
    rfl

/-- Every object of a machine in the document of a valid workflow is closed. It is that of a
workflow inside it, of one call or of a branch that starts with a map, and where it is that of a
workflow no fragment is lost. -/
theorem Workflow.machine_closed {w : Workflow} (hValid : w.validate = .ok ()) {m : Machine}
    (hMachine : w.machine resolver = .ok m) {v : Json} (h : m.toJson.HoldsMachine v) :
    v.Closed ∧ ∃ n, v = n.toJson ∧ n.Origin resolver w ∧
      ∀ u, w.Reaches u → u.machine resolver = .ok n → ∃ groups, Collects resolver u groups v := by
  obtain ⟨n, hHolds, rfl⟩ := Machine.holds_of_holdsMachine h
  have hOrigin := Workflow.origin_of_holds hMachine hHolds
  refine ⟨hOrigin.closed hValid, n, rfl, hOrigin, fun u hReaches hOwn => ?_⟩
  exact Workflow.exists_collects (hReaches.validate hValid) hOwn

/-! ## A document with all kinds of made names -/

/-- A switch without a default, a repeat of two calls and a branch whose elements go through a map's
activity and a task after it. -/
def allMadeNames : Workflow :=
  ⟨"s", [("s", .switch ⟨[⟨"x", .equals, .int 1, "r"⟩], none⟩), ("r", .repeat ⟨"f", 2, some "p"⟩),
    ("p", .parallel ⟨[⟨none, ⟨"m", [("m", .map ⟨.activity "f", "xs", none, none, some "t"⟩),
      ("t", .task ⟨"g", none⟩)]⟩⟩], none⟩)]⟩

/-- The machine that the elements go through. -/
def elementMachine : Machine := ⟨"m", [("m", .task "/f" (some "t")), ("t", .task "/g" none)]⟩

def allMadeNamesMachine : Machine :=
  ⟨"s", [("s", .choice [⟨.compare (.path "x") "NumericEquals" (.int 1), "r"⟩] "s_no_match"),
    ("s_no_match", .succeed), ("r", .task "/f" (some "r_1")), ("r_1", .task "/f" (some "p")),
    ("p", .parallel [mapBranch "m" ⟨.activity "f", "xs", none, none, some "t"⟩ elementMachine]
      [("f", .item 0)] none)]⟩

/-- The iterator inside the branch is closed too, and has the two states of the
workflow that it encodes. -/
theorem Workflow.machine_closed_allMadeNames :
    allMadeNames.validate = .ok () ∧
      allMadeNames.machine ⟨none, [("f", "/f"), ("g", "/g")]⟩ = .ok allMadeNamesMachine ∧
      allMadeNamesMachine.toJson.HoldsMachine elementMachine.toJson ∧
      elementMachine.toJson.Closed ∧ ∃ n, elementMachine.toJson = n.toJson ∧
        n.Origin ⟨none, [("f", "/f"), ("g", "/g")]⟩ allMadeNames ∧
        ∀ u, allMadeNames.Reaches u → u.machine ⟨none, [("f", "/f"), ("g", "/g")]⟩ = .ok n →
          ∃ groups, Collects ⟨none, [("f", "/f"), ("g", "/g")]⟩ u groups elementMachine.toJson := by
  have hMachine : allMadeNames.machine ⟨none, [("f", "/f"), ("g", "/g")]⟩ =
      .ok allMadeNamesMachine := rfl
  have hBranch : allMadeNamesMachine.toJson.HoldsMachine
      (mapBranch "m" ⟨.activity "f", "xs", none, none, some "t"⟩ elementMachine).toJson := by
    refine .branch .refl rfl (List.mem_cons_of_mem _ (List.mem_cons_of_mem _ (List.mem_cons_of_mem _
      (List.mem_cons_of_mem _ List.mem_cons_self)))) rfl List.mem_cons_self
  have hElement : allMadeNamesMachine.toJson.HoldsMachine elementMachine.toJson :=
    .iterator hBranch rfl List.mem_cons_self rfl
  exact ⟨rfl, hMachine, hElement, Workflow.machine_closed rfl hMachine hElement⟩

end Orchestration
