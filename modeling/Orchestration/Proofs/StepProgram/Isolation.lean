import Mathlib.Data.List.Forall2
import Orchestration.Proofs.StepProgram.Encoding
import Orchestration.Proofs.Workflow.Levels

/-!
# Branches and their slots

The branches of a parallel state run side by side, and each leaves its last value in a variable that
is shared with the parallel state: its slot. The slot is named after the state and the key of the
branch, and all that the branch writes besides is named after the slot (`Branch.locals`).

* `Fork.Isolated` says that no branch writes the slot of another one, so each key of the merged
  payload reads what its own branch has left.
* `Workflow.forks_isolated_iff`: the parallel states of a document are isolated if and only if no
  key reads, as an identifier, like another key or like a variable of another branch.
-/

namespace Orchestration

/-! ## What steps write -/

/-- The variable that a place is in. -/
def Place.variable : Place → String
  | .var name | .field name _ | .keyed name _ | .item name _ => name

mutual

/-- The variables that a step writes, by an assignment or as a result, at every depth. -/
@[simp] def Step.writes : Step → List String
  | .assign writes _ => writes.map fun w => w.1.variable
  | .post _ _ result | .runMap _ _ result => [result]
  | .forEach _ _ steps | .forPositions _ _ steps | .parallelFor _ _ _ _ _ steps | .when _ steps =>
    stepWrites steps
  | .parallel _ branches => branchWrites branches
  | .switch _ _ | .goto _ | .ret _ => []

/-- `Step.writes` of named steps. -/
@[simp] def stepWrites : List (String × Step) → List String
  | [] => []
  | (_, s) :: rest => s.writes ++ stepWrites rest

/-- `Step.writes` of the steps of branches. -/
@[simp] def branchWrites : List (String × List (String × Step)) → List String
  | [] => []
  | (_, steps) :: rest => stepWrites steps ++ branchWrites rest

end

theorem stepWrites_append (p q : StepProgram) :
    stepWrites (p ++ q) = stepWrites p ++ stepWrites q := by
  induction p with
  | nil => rfl
  | cons s p ih => rw [List.cons_append, stepWrites, stepWrites, ih, List.append_assoc]

/-! ## Forks -/

/-- Branches that run side by side, the variables that they share, and what is
made of these after them. -/
structure Fork where
  shared : List String
  branches : List (String × StepProgram)
  merged : List (String × Template)

/-- The fields of the object that a step assigns, if it assigns just one. -/
@[simp] def Step.mergedFields : Step → List (String × Template)
  | .assign [(_, .object fields)] _ => fields
  | _ => []

/-- The fields of the object that the first step assigns. -/
@[simp] def mergedFields : List (String × Step) → List (String × Template)
  | [] => []
  | (_, s) :: _ => s.mergedFields

/-- The fork that a step is by itself; what is merged is assigned by the step after it. -/
@[simp] def Step.ownFork (merged : List (String × Template)) : Step → List Fork
  | .parallel shared branches => [⟨shared, branches, merged⟩]
  | _ => []

mutual

/-- The forks inside a step. -/
@[simp] def Step.innerForks : Step → List Fork
  | .forEach _ _ steps | .forPositions _ _ steps | .parallelFor _ _ _ _ _ steps | .when _ steps =>
    stepForks steps
  | .parallel _ branches => branchForks branches
  | .assign _ _ | .post _ _ _ | .runMap _ _ _ | .switch _ _ | .goto _ | .ret _ => []

/-- The forks of steps, at every depth. -/
@[simp] def stepForks : List (String × Step) → List Fork
  | [] => []
  | (_, s) :: rest => s.ownFork (mergedFields rest) ++ s.innerForks ++ stepForks rest

/-- `stepForks` of the steps of branches. -/
@[simp] def branchForks : List (String × List (String × Step)) → List Fork
  | [] => []
  | (_, steps) :: rest => stepForks steps ++ branchForks rest

end

/-- Steps that do not begin with a merge are put after others without a change
to the forks of these. -/
theorem stepForks_append (p : StepProgram) {q : StepProgram} (h : mergedFields q = []) :
    stepForks (p ++ q) = stepForks p ++ stepForks q := by
  induction p with
  | nil => rfl
  | cons s rest ih =>
    have hMerged : mergedFields (rest ++ q) = mergedFields rest := by
      cases rest with
      | nil => exact h
      | cons t rest => rfl
    rw [List.cons_append, stepForks, stepForks, hMerged, ih, List.append_assoc, List.append_assoc,
      List.append_assoc]

theorem mergedFields_append {p q : StepProgram} (hp : mergedFields p = [])
    (hq : mergedFields q = []) :
    mergedFields (p ++ q) = [] := by
  cases p with
  | nil => exact hq
  | cons s rest => exact hp

/-- No branch writes the slot of another branch, and the merged payload has under each key the slot
of a branch that this branch alone has written. -/
structure Fork.Isolated (f : Fork) (branches : List Branch) : Prop where
  /-- The slots differ. -/
  distinct : f.shared.Nodup
  /-- Of the slots, a branch writes its own. -/
  own : ∀ b ∈ f.branches, ∀ v ∈ stepWrites b.2, v ∈ f.shared → v = b.1
  /-- The merged payload has the slots under the keys of the branches. -/
  merged : f.merged = (branches.map Branch.key).zip (f.branches.map fun b => Template.var b.1)
  /-- What is read there was written by the branch of the key and by no other. -/
  sole : ∀ b ∈ f.branches, ∀ c ∈ f.branches, b.1 ∈ stepWrites c.2 ↔ c = b

/-! ## The variables of branches -/

/-- The names of the variables that a map writes besides the payload. -/
def MapBody.locals (name : String) : MapBody → List String
  | .activity _ => [name ++ "_results", name ++ "_list", name ++ "_response"]
  | .workflow _ => [name ++ "_elements", name ++ "_item", name ++ "_results"]

/-- A slot, and variables that are named after it. -/
def slotVariables (slot : String) (locals : List String) : List String :=
  slot :: locals.map (slot ++ "_" ++ ·)

mutual

/-- The names of the variables that states write besides the payload, without
the slot before them. -/
def statesLocals : List (String × State) → List String
  | [] => []
  | (name, s) :: rest => s.locals name ++ statesLocals rest

def State.locals (name : String) : State → List String
  | .map ⟨body, _, _, _, _⟩ => body.locals name
  | .loop _ => [name ++ "_response"]
  | .parallel ⟨branches, _⟩ => branchesLocals name branches
  | .task _ | .switch _ | .repeat _ => []

/-- The slots of the branches of a state, and the variables of the branches. -/
def branchesLocals (name : String) : List Branch → List String
  | [] => []
  | b :: rest => slotVariables (name ++ "_" ++ b.key) b.locals ++ branchesLocals name rest

/-- The names of the variables of a branch, without the slot before them. -/
def Branch.locals : Branch → List String
  | ⟨bname, ⟨root, states⟩⟩ =>
    "payload" ::
      match Entries.get? root states with
      | some (.task _) => statesLocals states
      | some (.map m) =>
        match Branch.elementWorkflow ⟨bname, ⟨root, states⟩⟩ with
        | some element => (MapBody.workflow element).locals root
        | none => m.body.locals root
      | _ => []

end

mutual

/-- The branches of each parallel state among states, also inside branches. -/
def statesParallels : List (String × State) → List (List Branch)
  | [] => []
  | (_, s) :: rest => s.parallels ++ statesParallels rest

def State.parallels : State → List (List Branch)
  | .parallel ⟨branches, _⟩ => branches :: branchesParallels branches
  | .task _ | .switch _ | .map _ | .repeat _ | .loop _ => []

/-- The branches of each parallel state inside branches. -/
def branchesParallels : List Branch → List (List Branch)
  | [] => []
  | b :: rest => b.parallels ++ branchesParallels rest

/-- The states of a branch that starts with a map are in another document, if
there are more of them. -/
def Branch.parallels : Branch → List (List Branch)
  | ⟨_, ⟨root, states⟩⟩ =>
    match Entries.get? root states with
    | some (.task _) => statesParallels states
    | _ => []

end

/-- The branches of each parallel state in the document of a workflow, also inside branches. -/
def Workflow.parallels (w : Workflow) : List (List Branch) := statesParallels w.states

/-- As an identifier, no key of a branch is another key or the name of a variable of a branch, with
the key of the branch before it. -/
structure KeysApart (branches : List Branch) : Prop where
  distinct : (branches.map fun b => StepProgram.ident b.key).Nodup
  apart : ∀ b ∈ branches, ∀ c ∈ branches, ∀ l ∈ b.locals,
    StepProgram.ident c.key ≠ StepProgram.ident (b.key ++ "_" ++ l)

namespace StepProgram

variable {sc : Scope} {lifted : List (String × Workflow)}

/-! ## Names -/

theorem Scope.name_append_inj {sc : Scope} {start a b : String} :
    sc.name (start ++ a) = sc.name (start ++ b) ↔ ident a = ident b := by
  rw [name_append, name_append, String.append_right_inj]

/-- Names in a branch are named after its slot. -/
theorem Scope.inBranch_name (sc : Scope) (slot name : String) :
    (sc.inBranch (sc.name slot)).name name = sc.name (slot ++ "_" ++ name) := by
  have hMark : ident "_" = "_" := by decide
  rw [Scope.name_append, Scope.name_append, hMark]
  rfl

theorem Scope.inBranch_payloadVar (sc : Scope) (slot : String) :
    (sc.inBranch slot).payloadVar = (sc.inBranch slot).name "payload" := by
  have hIdent : ident "payload" = "payload" := by decide
  simp [Scope.inBranch, Scope.name, hIdent, String.append_assoc]

/-! ## What the encoding writes -/

/-- The steps of a branch, under its slot, write the slot and the variables of the branch. -/
def BranchOf (sc : Scope) (name : String) (p : String × StepProgram) (b : Branch) : Prop :=
  p.1 = sc.name (name ++ "_" ++ b.key) ∧
    ∀ v, v ∈ stepWrites p.2 ↔ v ∈ (slotVariables (name ++ "_" ++ b.key) b.locals).map sc.name

theorem fst_of_branchOf {name : String} {programs : List (String × StepProgram)}
    {branches : List Branch} (h : List.Forall₂ (BranchOf sc name) programs branches) :
    programs.map Prod.fst = slots sc name branches := by
  induction h with
  | nil => rfl
  | cons hBranch _ ih => rw [List.map_cons, ih, hBranch.1, slots, slots, List.map_cons]

/-- The fork of a parallel state with these branches. -/
def ForkOf (f : Fork) (branches : List Branch) : Prop :=
  ∃ sc name, f.shared = slots sc name branches ∧
    List.Forall₂ (BranchOf sc name) f.branches branches ∧
    f.merged = Entries.ofWrites ((branches.map Branch.key).zip (f.shared.map Template.var))

/-- Steps that write the payload and these variables, and have the forks of
these parallel states. -/
structure Encoded (sc : Scope) (p : StepProgram) (locals : List String)
    (parallels : List (List Branch)) : Prop where
  writes : ∀ v, v ∈ stepWrites p ∨ v = sc.payloadVar ↔ v ∈ locals.map sc.name ∨ v = sc.payloadVar
  forks : List.Forall₂ ForkOf (stepForks p) parallels
  /-- A fork is merged by its own state and not by the next one. -/
  starts : mergedFields p = []

namespace Encoded

theorem nil (sc : Scope) : Encoded sc [] [] [] := ⟨fun v => by simp, .nil, rfl⟩

theorem append {p q : StepProgram} {locals locals' : List String}
    {parallels parallels' : List (List Branch)} (hp : Encoded sc p locals parallels)
    (hq : Encoded sc q locals' parallels') :
    Encoded sc (p ++ q) (locals ++ locals') (parallels ++ parallels') := by
  refine ⟨fun v => ?_, ?_, mergedFields_append hp.starts hq.starts⟩
  · rw [stepWrites_append, List.map_append, List.mem_append, List.mem_append]
    have hFirst := hp.writes v
    have hSecond := hq.writes v
    grind
  · rw [stepForks_append p hq.starts]
    exact List.rel_append hp.forks hq.forks

end Encoded

theorem taskSteps_encoded {name : String} {t : TaskState} {p : StepProgram}
    (h : taskSteps sc name t = .ok p) : Encoded sc p [] [] := by
  obtain ⟨url, -, rfl⟩ := taskSteps_eq_ok_iff.mp h
  exact ⟨by simp [Place.variable], .nil, rfl⟩

theorem chainSteps_encoded {tasks : List (String × TaskState)} {p : StepProgram}
    (h : chainSteps sc tasks = .ok p) : Encoded sc p [] [] := by
  induction tasks generalizing p with
  | nil =>
    cases h
    exact .nil sc
  | cons t rest ih =>
    obtain ⟨steps, hSteps, more, hMore, rfl⟩ := chainSteps_cons_eq_ok_iff.mp h
    exact (taskSteps_encoded hSteps).append (ih hMore)

theorem loopSteps_encoded {name : String} {l : LoopState} {p : StepProgram}
    (h : loopSteps sc name l = .ok p) : Encoded sc p [name ++ "_response"] [] := by
  obtain ⟨url, -, rfl⟩ := loopSteps_eq_ok_iff.mp h
  exact ⟨by simp, .nil, rfl⟩

theorem inlineMap_encoded {name activity : String} {m : MapState} {p : StepProgram}
    (h : inlineMap sc name m activity = .ok p) :
    Encoded sc p ((MapBody.activity activity).locals name) [] := by
  obtain ⟨url, -, rfl⟩ := inlineMap_eq_ok_iff.mp h
  clear h
  refine ⟨fun v => ?_, .nil, rfl⟩
  simp only [stepWrites, Step.writes, List.map_cons, List.map_nil, Place.variable, MapBody.locals,
    Scope.place, List.mem_append, List.mem_cons, List.not_mem_nil, or_false]
  grind

theorem liftedMap_encoded {name : String} {m : MapState} {next : Option String} {body : Workflow}
    {p : StepProgram} (h : liftedMap sc name m next body = ⟨lifted, .ok p⟩) :
    Encoded sc p ((MapBody.workflow body).locals name) [] := by
  obtain ⟨-, rfl⟩ := liftedMap_eq_ok_iff.mp h
  clear h
  refine ⟨fun v => ?_, .nil, rfl⟩
  simp only [stepWrites, Step.writes, List.map_cons, List.map_nil, Place.variable, MapBody.locals,
    Scope.place, List.mem_append, List.mem_cons, List.not_mem_nil, or_false]
  grind

theorem mapSteps_encoded {name : String} {m : MapState} {p : StepProgram}
    (h : mapSteps sc name m = ⟨lifted, .ok p⟩) : Encoded sc p (m.body.locals name) [] := by
  rcases mapSteps_eq_ok h with ⟨activity, hBody, -, hInline⟩ | ⟨body, hBody, hLifted⟩
  · rw [hBody]
    exact inlineMap_encoded hInline
  · rw [hBody]
    exact liftedMap_encoded hLifted

theorem map_slotVariables (sc : Scope) (slot : String) (locals : List String) :
    (slotVariables slot locals).map sc.name =
      sc.name slot :: locals.map (sc.inBranch (sc.name slot)).name := by
  have hNames : (sc.inBranch (sc.name slot)).name = fun l => sc.name (slot ++ "_" ++ l) :=
    funext (sc.inBranch_name slot)
  simp only [slotVariables, List.map_cons, List.map_map, Function.comp_def, hNames]

theorem stepWrites_finishSteps (slot payloadVar : String) (array : Option String) (v : String) :
    v ∈ stepWrites (finishSteps slot payloadVar array) ↔ v = slot := by
  cases array <;> simp [finishSteps, Place.variable]

/-- A branch writes its slot after its states, and the payload of the branch before them. -/
theorem wrapBranch_encoded {state slot root : String} {steps : StepProgram} {array : Option String}
    {branch : String × StepProgram} {locals : List String} {parallels : List (List Branch)}
    (hSteps : Encoded (sc.inBranch (sc.name slot)) steps locals parallels)
    (h : wrapBranch sc state (sc.name slot) root steps array = .ok branch) :
    branch.1 = sc.name slot ∧
      (∀ v, v ∈ stepWrites branch.2 ↔ v ∈ (slotVariables slot ("payload" :: locals)).map sc.name) ∧
      List.Forall₂ ForkOf (stepForks branch.2) parallels := by
  obtain ⟨-, rfl⟩ := wrapBranch_eq_ok_iff.mp h
  clear h
  have hFinish :
      mergedFields (finishSteps (sc.name slot) (sc.inBranch (sc.name slot)).payloadVar array) =
        [] := by
    cases array <;> rfl
  have hNoFork :
      stepForks (finishSteps (sc.name slot) (sc.inBranch (sc.name slot)).payloadVar array) =
        [] := by
    cases array <;> rfl
  refine ⟨rfl, fun v => ?_, ?_⟩
  · have hInner := hSteps.writes v
    rw [map_slotVariables, List.map_cons, ← Scope.inBranch_payloadVar, stepWrites,
      stepWrites_append]
    simp only [List.mem_append, List.mem_cons, stepWrites_finishSteps, Step.writes, List.map_cons,
      List.map_nil, Place.variable, List.not_mem_nil, or_false]
    grind
  · rw [stepForks, stepForks_append steps hFinish, hNoFork, List.append_nil]
    exact hSteps.forks

/-- The states of a parallel state's branches are encoded in them, and it merges
what their slots hold. -/
theorem parallelSteps_encoded {name : String} {branches : List Branch} {next : Option String}
    {programs : List (String × StepProgram)}
    (hBranches : List.Forall₂ (BranchOf sc name) programs branches)
    (hForks : List.Forall₂ ForkOf (branchForks programs) (branchesParallels branches)) :
    Encoded sc (parallelSteps sc name ⟨branches, next⟩ programs) (branchesLocals name branches)
      (branches :: branchesParallels branches) := by
  have hWrites (v : String) : v ∈ slots sc name branches ∨ v ∈ branchWrites programs ↔
      v ∈ (branchesLocals name branches).map sc.name := by
    clear hForks
    induction hBranches with
    | nil => simp [slots, branchesLocals]
    | @cons p b programs rest hBranch _ ih =>
      have hOwn := hBranch.2 v
      rw [map_slotVariables, List.mem_cons] at hOwn
      have hSlots :
          slots sc name (b :: rest) = sc.name (name ++ "_" ++ b.key) :: slots sc name rest := rfl
      rw [branchesLocals, List.map_append, List.mem_append, ← ih, map_slotVariables, hSlots,
        branchWrites, List.mem_append, hOwn, List.mem_cons, List.mem_cons]
      grind
  refine ⟨fun v => ?_, ?_, ?_⟩
  · rw [← hWrites]
    simp only [parallelSteps, stepWrites, Step.writes, List.map_map, Function.comp_def,
      Place.variable, List.map_id', List.map_cons, List.map_nil, List.mem_append,
      List.mem_singleton, List.not_mem_nil, or_false]
    grind
  · refine .cons ⟨sc, name, rfl, hBranches, rfl⟩ ?_
    simpa [parallelSteps] using hForks
  · cases branches with
    | nil => rfl
    | cons b rest => cases rest <;> rfl

mutual

theorem statesSteps_encoded {sc : Scope} {lifted : List (String × Workflow)} {taken : List String}
    {states : List (String × State)} {p : StepProgram}
    (h : statesSteps sc taken states = ⟨lifted, .ok p⟩) :
    Encoded sc p (statesLocals states) (statesParallels states) := by
  cases states with
  | nil =>
    cases h
    exact .nil sc
  | cons e rest =>
    obtain ⟨name, s⟩ := e
    rw [statesSteps] at h
    obtain ⟨l₁, steps, l₂, hState, hTail, rfl⟩ := Lifting.bind_eq_ok_iff.mp h
    obtain ⟨_, names, l₃, -, hLast, rfl⟩ := Lifting.bind_eq_ok_iff.mp hTail
    obtain ⟨l₄, more, _, hRest, hPure, rfl⟩ := Lifting.bind_eq_ok_iff.mp hLast
    obtain ⟨rfl, rfl⟩ := Lifting.pure_eq_ok_iff.mp hPure
    rw [statesLocals, statesParallels]
    exact (stateSteps_encoded hState).append (statesSteps_encoded hRest)

theorem stateSteps_encoded {sc : Scope} {lifted : List (String × Workflow)} {name : String}
    {s : State} {p : StepProgram} (h : stateSteps sc name s = ⟨lifted, .ok p⟩) :
    Encoded sc p (s.locals name) s.parallels := by
  cases s with
  | task t => exact taskSteps_encoded (Lifting.ofExcept_eq_ok_iff.mp h).2
  | «switch» s =>
    obtain ⟨rfl, rfl⟩ := Lifting.pure_eq_ok_iff.mp h
    exact ⟨by simp [switchSteps, State.locals], .nil, rfl⟩
  | map m =>
    obtain ⟨body, array, commonParams, maxConcurrency, next⟩ := m
    exact mapSteps_encoded h
  | «repeat» r => exact chainSteps_encoded (Lifting.ofExcept_eq_ok_iff.mp h).2
  | loop l => exact loopSteps_encoded (Lifting.ofExcept_eq_ok_iff.mp h).2
  | parallel p =>
    obtain ⟨branches, next⟩ := p
    rw [stateSteps] at h
    obtain ⟨l₁, programs, _, hBranches, hPure, rfl⟩ := Lifting.bind_eq_ok_iff.mp h
    obtain ⟨rfl, rfl⟩ := Lifting.pure_eq_ok_iff.mp hPure
    obtain ⟨hEach, hForks⟩ := branchesSteps_encoded hBranches
    exact parallelSteps_encoded hEach hForks

theorem branchesSteps_encoded {sc : Scope} {lifted : List (String × Workflow)} {name : String}
    {branches : List Branch} {programs : List (String × StepProgram)}
    (h : branchesSteps sc name branches = ⟨lifted, .ok programs⟩) :
    List.Forall₂ (BranchOf sc name) programs branches ∧
      List.Forall₂ ForkOf (branchForks programs) (branchesParallels branches) := by
  cases branches with
  | nil =>
    cases h
    exact ⟨.nil, .nil⟩
  | cons b rest =>
    rw [branchesSteps] at h
    obtain ⟨l₁, ⟨steps, array⟩, l₂, hBranch, hTail, rfl⟩ := Lifting.bind_eq_ok_iff.mp h
    obtain ⟨_, branch, l₃, hWrap, hLast, rfl⟩ := Lifting.bind_eq_ok_iff.mp hTail
    obtain ⟨l₄, more, _, hRest, hPure, rfl⟩ := Lifting.bind_eq_ok_iff.mp hLast
    obtain ⟨rfl, rfl⟩ := Lifting.pure_eq_ok_iff.mp hPure
    obtain ⟨locals, hLocals, hSteps⟩ := branchSteps_encoded hBranch
    obtain ⟨hSlot, hWrites, hForks⟩ :=
      wrapBranch_encoded hSteps (Lifting.ofExcept_eq_ok_iff.mp hWrap).2
    obtain ⟨hEach, hMore⟩ := branchesSteps_encoded hRest
    rw [branchesParallels]
    rw [← hLocals] at hWrites
    exact ⟨.cons ⟨hSlot, hWrites⟩ hEach, List.rel_append hForks hMore⟩

/-- Besides its payload a branch has the variables of its states. -/
theorem branchSteps_encoded {sc : Scope} {lifted : List (String × Workflow)} {name : String}
    {b : Branch} {steps : StepProgram} {array : Option String}
    (h : branchSteps sc name b = ⟨lifted, .ok (steps, array)⟩) :
    ∃ locals, b.locals = "payload" :: locals ∧ Encoded sc steps locals b.parallels := by
  obtain ⟨bname, root, states⟩ := b
  rw [branchSteps] at h
  rw [Branch.locals, Branch.parallels]
  refine ⟨_, rfl, ?_⟩
  cases hRoot : Entries.get? root states with
  | none => simp [hRoot, Lifting.ofExcept] at h
  | some s =>
    rw [hRoot] at h
    cases s with
    | task t => exact statesSteps_encoded (Lifting.of_bind_pure_pair h)
    | map m =>
      dsimp only at h ⊢
      cases hElement : Branch.elementWorkflow ⟨bname, ⟨root, states⟩⟩ with
      | some element =>
        rw [hElement] at h
        exact liftedMap_encoded (Lifting.of_bind_pure_pair h)
      | none =>
        rw [hElement] at h
        exact mapSteps_encoded (Lifting.of_bind_pure_pair h)
    | _ => simp [Lifting.ofExcept] at h

end

/-! ## When branches are isolated -/

/-- As an identifier, a name is longer than what it is named after. -/
theorem ident_ne_named (a b : String) : ident a ≠ ident (a ++ "_" ++ b) := by
  intro h
  have hLength := congrArg String.length h
  have hMark : ident "_" = "_" := by decide
  have hOne : "_".length = 1 := by decide
  rw [ident_append, ident_append, hMark, String.length_append, String.length_append, hOne]
    at hLength
  omega

/-- A slot is a variable of a branch where the identifiers of its key and of the
variable are the same. -/
theorem slot_eq_variable_iff {name key key' l : String} :
    sc.name (name ++ "_" ++ key') = sc.name (name ++ "_" ++ key ++ "_" ++ l) ↔
      ident key' = ident (key ++ "_" ++ l) := by
  have hStart : name ++ "_" ++ key ++ "_" ++ l = name ++ "_" ++ (key ++ "_" ++ l) := by
    simp only [String.append_assoc]
  rw [hStart, Scope.name_append_inj]

/-- All slots begin alike, so they differ where the identifiers of the keys do. -/
theorem nodup_slots_iff {name : String} {branches : List Branch} :
    (slots sc name branches).Nodup ↔ (branches.map fun b => ident b.key).Nodup := by
  have hSlots : slots sc name branches =
      (branches.map fun b => ident b.key).map (sc.name (name ++ "_") ++ ·) := by
    simp only [slots, List.map_map, Function.comp_def, Scope.name_append]
  have hInj : Function.Injective (sc.name (name ++ "_") ++ ·) := fun _ _ => by simp
  rw [hSlots, List.nodup_map_iff hInj]

section Forks

variable {f : Fork} {branches : List Branch} {name : String}

theorem keysApart_of_isolated (hShared : f.shared = slots sc name branches)
    (hBranches : List.Forall₂ (BranchOf sc name) f.branches branches) (h : f.Isolated branches) :
    KeysApart branches := by
  have hDistinct := h.distinct
  rw [hShared, nodup_slots_iff] at hDistinct
  refine ⟨hDistinct, ?_⟩
  intro b hb c hc l hl hEq
  obtain ⟨p, hp, hOf⟩ := exists_of_forall₂ hBranches.flip hb
  have hWritten : sc.name (name ++ "_" ++ c.key) ∈ stepWrites p.2 := by
    rw [hOf.2, slotVariables, slot_eq_variable_iff.mpr hEq]
    exact List.mem_map_of_mem (List.mem_cons_of_mem _ (List.mem_map_of_mem hl))
  have hSlot : sc.name (name ++ "_" ++ c.key) ∈ f.shared := by
    rw [hShared]
    exact List.mem_map_of_mem hc
  have hOwn := h.own p hp _ hWritten hSlot
  rw [hOf.1, Scope.name_append_inj] at hOwn
  rw [hOwn] at hEq
  exact ident_ne_named b.key l hEq

/-- If the keys are apart, a branch writes no slot but its own. -/
theorem eq_of_mem_stepWrites (hShared : f.shared = slots sc name branches)
    (hBranches : List.Forall₂ (BranchOf sc name) f.branches branches) (h : KeysApart branches)
    {p : String × StepProgram} {v : String} (hp : p ∈ f.branches) (hWritten : v ∈ stepWrites p.2)
    (hSlot : v ∈ f.shared) : v = p.1 := by
  obtain ⟨b, hb, hOf⟩ := exists_of_forall₂ hBranches hp
  rw [hShared] at hSlot
  obtain ⟨c, hc, rfl⟩ := List.mem_map.mp hSlot
  rw [hOf.2, slotVariables, List.map_cons, List.map_map, List.mem_cons] at hWritten
  rcases hWritten with hSame | hInside
  · rw [hSame, hOf.1]
  · obtain ⟨l, hl, hEq⟩ := List.mem_map.mp hInside
    exact absurd (slot_eq_variable_iff.mp hEq.symm) (h.apart b hb c hc l hl)

theorem isolated_of_keysApart (hShared : f.shared = slots sc name branches)
    (hBranches : List.Forall₂ (BranchOf sc name) f.branches branches)
    (hMerged : f.merged =
      Entries.ofWrites ((branches.map Branch.key).zip (f.shared.map Template.var)))
    (hKeys : (branches.map Branch.key).Nodup) (h : KeysApart branches) : f.Isolated branches := by
  have hNames : f.branches.map Prod.fst = f.shared := by
    rw [hShared, fst_of_branchOf hBranches]
  have hNodup : f.shared.Nodup := by
    rw [hShared, nodup_slots_iff]
    exact h.distinct
  refine ⟨hNodup, fun p hp v => eq_of_mem_stepWrites hShared hBranches h hp, ?_, ?_⟩
  · have hValues : f.shared.map Template.var = f.branches.map fun b => Template.var b.1 := by
      rw [← hNames, List.map_map]
      rfl
    rw [hMerged, hValues]
    apply Entries.ofWrites_of_nodup
    rw [Entries.keys, List.map_fst_zip]
    · exact hKeys
    · simp [hBranches.length_eq]
  · intro p hp q hq
    constructor
    · intro hWritten
      have hSlot : p.1 ∈ f.shared := by
        rw [← hNames]
        exact List.mem_map_of_mem hp
      have hSame := eq_of_mem_stepWrites hShared hBranches h hq hWritten hSlot
      rw [← hNames] at hNodup
      exact List.inj_on_of_nodup_map hNodup hq hp hSame.symm
    · rintro rfl
      obtain ⟨b, -, hOf⟩ := exists_of_forall₂ hBranches hq
      rw [hOf.2, hOf.1]
      exact List.mem_map_of_mem List.mem_cons_self

end Forks

theorem ForkOf.isolated_iff {f : Fork} {branches : List Branch} (h : ForkOf f branches)
    (hKeys : (branches.map Branch.key).Nodup) : f.Isolated branches ↔ KeysApart branches := by
  obtain ⟨sc, name, hShared, hBranches, hMerged⟩ := h
  exact ⟨keysApart_of_isolated hShared hBranches,
    isolated_of_keysApart hShared hBranches hMerged hKeys⟩

mutual

/-- The branches of each parallel state have keys of their own, if they were validated. -/
theorem nodup_keys_of_mem_statesParallels {states : List (String × State)} {branches : List Branch}
    (hValid : ∀ name s, (name, s) ∈ states → s.validate name = .ok ())
    (h : branches ∈ statesParallels states) : (branches.map Branch.key).Nodup := by
  cases states with
  | nil => cases h
  | cons e rest =>
    obtain ⟨name, s⟩ := e
    rw [statesParallels] at h
    rcases List.mem_append.mp h with hState | hRest
    · exact nodup_keys_of_mem_parallels (hValid name s List.mem_cons_self) hState
    · exact nodup_keys_of_mem_statesParallels
        (fun name s hMem => hValid name s (List.mem_cons_of_mem _ hMem)) hRest

theorem nodup_keys_of_mem_parallels {name : String} {s : State} {branches : List Branch}
    (hValid : s.validate name = .ok ()) (h : branches ∈ s.parallels) :
    (branches.map Branch.key).Nodup := by
  cases s with
  | parallel p =>
    obtain ⟨own, next⟩ := p
    obtain ⟨-, hInside, hKeys⟩ := State.validate_parallel_eq_ok_iff.mp hValid
    rw [State.parallels] at h
    rcases List.mem_cons.mp h with rfl | hInner
    · exact hKeys
    · exact nodup_keys_of_mem_branchesParallels hInside hInner
  | _ => cases h

theorem nodup_keys_of_mem_branchesParallels {name : String} {own branches : List Branch}
    (hValid : ∀ b ∈ own, b.validate name = .ok ()) (h : branches ∈ branchesParallels own) :
    (branches.map Branch.key).Nodup := by
  cases own with
  | nil => cases h
  | cons b rest =>
    rw [branchesParallels] at h
    rcases List.mem_append.mp h with hBranch | hRest
    · exact nodup_keys_of_mem_branch (hValid b List.mem_cons_self) hBranch
    · exact nodup_keys_of_mem_branchesParallels
        (fun c hc => hValid c (List.mem_cons_of_mem _ hc)) hRest

theorem nodup_keys_of_mem_branch {name : String} {b : Branch} {branches : List Branch}
    (hValid : b.validate name = .ok ()) (h : branches ∈ b.parallels) :
    (branches.map Branch.key).Nodup := by
  obtain ⟨bname, root, states⟩ := b
  rw [Branch.parallels] at h
  split at h
  · have hWorkflow := (Branch.validate_eq_ok_iff.mp hValid).1
    have hStates := (Workflow.validate_eq_ok_iff.mp hWorkflow).2
    exact nodup_keys_of_mem_statesParallels (fun name s hMem => (hStates name s hMem).2) h
  · cases h

end

end StepProgram

/-- In the document of a valid workflow, each parallel state has its branches isolated from one
another if and only if the identifiers of their keys are apart from each other and from the
names of their variables. -/
theorem Workflow.forks_isolated_iff {resolver : Resolver} {id : String} {w : Workflow} {doc : Json}
    {g : StepProgram.Generator} (hValid : w.validate = .ok ())
    (hDoc : (StepProgram.Generator.fresh resolver id).document w = (.ok doc, g)) :
    ∃ p, (w.stepProgram (.top resolver id)).result = .ok p ∧
      doc = StepProgram.toJson (StepProgram.ident w.root) p ∧
      (List.Forall₂ Fork.Isolated (stepForks p) w.parallels ↔
        ∀ branches ∈ w.parallels, KeysApart branches) := by
  obtain ⟨lifted, p, hProgram, rfl⟩ := Workflow.document_eq_ok hDoc
  refine ⟨p, by rw [hProgram], rfl, ?_⟩
  have hForks := (StepProgram.statesSteps_encoded hProgram).forks
  have hKeys : ∀ branches ∈ w.parallels, (branches.map Branch.key).Nodup := by
    intro branches hMem
    have hStates := (Workflow.validate_eq_ok_iff.mp hValid).2
    exact StepProgram.nodup_keys_of_mem_statesParallels (fun name s h => (hStates name s h).2) hMem
  exact forall₂_iff_of_forall₂ hForks fun f branches hMem hOf =>
    hOf.isolated_iff (hKeys branches hMem)

/-- A parallel state whose branches call one activity each, under these names. -/
def twoBranches (first second : String) : Workflow :=
  ⟨"p", [("p", .parallel ⟨[⟨some first, ⟨"t", [("t", .task ⟨"f", none⟩)]⟩⟩,
    ⟨some second, ⟨"t", [("t", .task ⟨"g", none⟩)]⟩⟩], none⟩)]⟩

def branchAddresses : Resolver := ⟨none, [("f", "/f"), ("g", "/g")]⟩

/-- Names that are identifiers already keep the branches apart, though one begins with the other. -/
theorem Workflow.forks_isolated_twoBranches :
    (twoBranches "a" "a_b").validate = .ok () ∧
      ∃ doc g p,
        (StepProgram.Generator.fresh branchAddresses "flow").document (twoBranches "a" "a_b") =
          (.ok doc, g) ∧
        doc = StepProgram.toJson "p" p ∧
        List.Forall₂ Fork.Isolated (stepForks p) (twoBranches "a" "a_b").parallels := by
  have hValid : (twoBranches "a" "a_b").validate = .ok () := rfl
  obtain ⟨doc, g, hGenerated⟩ :
      ∃ doc g,
        (StepProgram.Generator.fresh branchAddresses "flow").document (twoBranches "a" "a_b") =
          (.ok doc, g) := ⟨_, _, rfl⟩
  obtain ⟨p, -, hDoc, hIff⟩ := Workflow.forks_isolated_iff hValid hGenerated
  refine ⟨hValid, doc, g, p, hGenerated, hDoc, hIff.mpr ?_⟩
  intro branches hMem
  obtain rfl := List.mem_singleton.mp hMem
  exact ⟨by decide, by decide⟩

/-- A blank and an underscore give one identifier, so both branches write one slot. -/
theorem Workflow.not_forks_isolated_twoBranches :
    (twoBranches "a b" "a_b").validate = .ok () ∧
      ∃ doc g p,
        (StepProgram.Generator.fresh branchAddresses "flow").document (twoBranches "a b" "a_b") =
          (.ok doc, g) ∧
        ((twoBranches "a b" "a_b").stepProgram (.top branchAddresses "flow")).result = .ok p ∧
        doc = StepProgram.toJson "p" p ∧
        ¬ List.Forall₂ Fork.Isolated (stepForks p) (twoBranches "a b" "a_b").parallels := by
  refine ⟨rfl, _, _, _, rfl, rfl, rfl, ?_⟩
  intro hIsolated
  have hDistinct := (List.forall₂_cons.mp hIsolated).1.distinct
  exact absurd hDistinct (by decide)

end Orchestration
