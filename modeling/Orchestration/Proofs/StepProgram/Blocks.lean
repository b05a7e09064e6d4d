import Orchestration.Proofs.StepProgram.Encoding

/-!
# The blocks of states

The steps of a document, or of a branch, are blocks, one for each state that stands there
(`Branch.standing` for a branch). `stateSteps_induct` is induction along the encoding: what holds of
the block of a state that is not parallel, and of a parallel state if it holds of the blocks in its
branches, holds of every block.
-/

namespace Orchestration

/-- The states whose steps are those of a branch. A branch that starts with a map has the map alone;
if it goes on after the map, the map has the workflow of its elements as its body. -/
def Branch.standing : Branch → List (String × State)
  | ⟨bname, ⟨root, states⟩⟩ =>
    match Entries.get? root states with
    | some (.task _) => states
    | some (.map m) =>
      match Branch.elementWorkflow ⟨bname, ⟨root, states⟩⟩ with
      | some element => [(root, .map { m with body := .workflow element, next := none })]
      | none => [(root, .map m)]
    | _ => []

namespace StepProgram

variable {sc : Scope}

/-! ## Names -/

/-- Names after one start differ if their endings do. -/
theorem Scope.nodup_name_append (sc : Scope) (start : String) {endings : List String}
    (h : (endings.map ident).Nodup) : (endings.map fun e => sc.name (start ++ e)).Nodup := by
  have hNames : (endings.map fun e => sc.name (start ++ e)) =
      (endings.map ident).map (sc.name start ++ ·) := by
    simp only [List.map_map, Function.comp_def, Scope.name_append]
  have hInj : Function.Injective (sc.name start ++ ·) := fun _ _ => by simp
  rw [hNames, List.nodup_map_iff hInj]
  exact h

theorem nodup_keys_liftedMap {name : String} {m : MapState} {next : Option String} {body : Workflow}
    {lifted : List (String × Workflow)} {p : StepProgram}
    (h : liftedMap sc name m next body = ⟨lifted, .ok p⟩) : (Entries.keys p).Nodup := by
  obtain ⟨-, rfl⟩ := liftedMap_eq_ok_iff.mp h
  have hEndings : (["", "_collect", "_call", "_writeback"].map ident).Nodup := by decide
  have hNames := sc.nodup_name_append name hEndings
  simpa [Entries.keys] using hNames

theorem nodup_keys_mapSteps {name : String} {m : MapState} {lifted : List (String × Workflow)}
    {p : StepProgram} (h : mapSteps sc name m = ⟨lifted, .ok p⟩) : (Entries.keys p).Nodup := by
  rcases mapSteps_eq_ok h with ⟨activity, -, -, hInline⟩ | ⟨body, -, hLifted⟩
  · obtain ⟨url, -, rfl⟩ := inlineMap_eq_ok_iff.mp hInline
    have hEndings : (["", "_fanout", "_gather", "_writeback"].map ident).Nodup := by decide
    have hNames := sc.nodup_name_append name hEndings
    simpa [Entries.keys] using hNames
  · exact nodup_keys_liftedMap hLifted

/-! ## Induction along the encoding -/

/-- The slot of a branch of a state. -/
def slotOf (sc : Scope) (name : String) (b : Branch) : String := sc.name (name ++ "_" ++ b.key)

/-- The program of a branch: steps around blocks that stand in the relation to the
states of the branch. -/
def AroundBlocks (R : Scope → String → State → StepProgram → Prop) (sc : Scope) (name : String)
    (b : Branch) (program : String × StepProgram) : Prop :=
  ∃ blocks array, (Entries.keys (List.flatten blocks)).Nodup ∧
    wrapBranch sc name (slotOf sc name b) b.workflow.root (List.flatten blocks) array =
      .ok program ∧
    List.Forall₂ (fun e => R (sc.inBranch (slotOf sc name b)) e.1 e.2) b.standing blocks

/-- The encoding keeps a relation of states to their blocks, from the branches of a
parallel state to it. -/
structure KeptByEncoding (R : Scope → String → State → StepProgram → Prop) : Prop where
  plain : ∀ {sc name s lifted p}, s.kind ≠ .parallel → stateSteps sc name s = ⟨lifted, .ok p⟩ →
    R sc name s p
  parallel : ∀ {sc name branches next programs lifted},
    stateSteps sc name (.parallel ⟨branches, next⟩) =
      ⟨lifted, .ok (parallelSteps sc name ⟨branches, next⟩ programs)⟩ →
    List.Forall₂ (AroundBlocks R sc name) branches programs →
    R sc name (.parallel ⟨branches, next⟩) (parallelSteps sc name ⟨branches, next⟩ programs)

variable {R : Scope → String → State → StepProgram → Prop}

mutual

theorem statesSteps_blocks (hR : KeptByEncoding R) {sc : Scope} {lifted : List (String × Workflow)}
    {taken : List String} {states : List (String × State)} {p : StepProgram}
    (h : statesSteps sc taken states = ⟨lifted, .ok p⟩) :
    ∃ blocks, p = List.flatten blocks ∧ List.Forall₂ (fun e => R sc e.1 e.2) states blocks := by
  cases states with
  | nil =>
    cases h
    exact ⟨[], rfl, .nil⟩
  | cons e rest =>
    obtain ⟨name, s⟩ := e
    obtain ⟨_, steps, hState, _, -, _, more, hRest, -, rfl⟩ := statesSteps_cons_eq_ok_iff.mp h
    obtain ⟨blocks, rfl, hBlocks⟩ := statesSteps_blocks hR hRest
    exact ⟨steps :: blocks, rfl, .cons (stateSteps_induct hR hState) hBlocks⟩

theorem stateSteps_induct (hR : KeptByEncoding R) {sc : Scope} {lifted : List (String × Workflow)}
    {name : String} {s : State} {p : StepProgram} (h : stateSteps sc name s = ⟨lifted, .ok p⟩) :
    R sc name s p := by
  -- Only a parallel state has blocks inside its block, and these are smaller.
  cases s with
  | parallel p =>
    obtain ⟨branches, next⟩ := p
    have hSteps := h
    rw [stateSteps] at hSteps
    obtain ⟨l, programs, _, hBranches, hPure, -⟩ := Lifting.bind_eq_ok_iff.mp hSteps
    obtain ⟨-, rfl⟩ := Lifting.pure_eq_ok_iff.mp hPure
    exact hR.parallel h (branchesSteps_aroundBlocks hR hBranches)
  | task _ | «switch» _ | map _ | «repeat» _ | loop _ => exact hR.plain (by simp [State.kind]) h

theorem branchesSteps_aroundBlocks (hR : KeptByEncoding R) {sc : Scope}
    {lifted : List (String × Workflow)} {name : String} {branches : List Branch}
    {programs : List (String × StepProgram)}
    (h : branchesSteps sc name branches = ⟨lifted, .ok programs⟩) :
    List.Forall₂ (AroundBlocks R sc name) branches programs := by
  cases branches with
  | nil =>
    cases h
    exact .nil
  | cons b rest =>
    rw [branchesSteps] at h
    obtain ⟨_, ⟨steps, array⟩, _, hBranch, hTail, -⟩ := Lifting.bind_eq_ok_iff.mp h
    obtain ⟨_, branch, _, hWrap, hLast, -⟩ := Lifting.bind_eq_ok_iff.mp hTail
    obtain ⟨_, more, _, hRest, hPure, -⟩ := Lifting.bind_eq_ok_iff.mp hLast
    obtain ⟨-, rfl⟩ := Lifting.pure_eq_ok_iff.mp hPure
    obtain ⟨blocks, rfl, hNodup, hBlocks⟩ := branchSteps_blocks hR hBranch
    have hBranch := (Lifting.ofExcept_eq_ok_iff.mp hWrap).2
    exact .cons ⟨blocks, array, hNodup, hBranch, hBlocks⟩ (branchesSteps_aroundBlocks hR hRest)

theorem branchSteps_blocks (hR : KeptByEncoding R) {sc : Scope} {lifted : List (String × Workflow)}
    {name : String} {b : Branch} {steps : StepProgram} {array : Option String}
    (h : branchSteps sc name b = ⟨lifted, .ok (steps, array)⟩) :
    ∃ blocks, steps = List.flatten blocks ∧ (Entries.keys (List.flatten blocks)).Nodup ∧
      List.Forall₂ (fun e => R sc e.1 e.2) b.standing blocks := by
  obtain ⟨bname, root, states⟩ := b
  rw [branchSteps] at h
  rw [Branch.standing]
  cases hRoot : Entries.get? root states with
  | none => simp [hRoot, Lifting.ofExcept] at h
  | some s =>
    rw [hRoot] at h
    cases s with
    | task t =>
      have hStates := Lifting.of_bind_pure_pair h
      obtain ⟨blocks, rfl, hBlocks⟩ := statesSteps_blocks hR hStates
      exact ⟨blocks, rfl, (statesSteps_eq_ok hStates).1, hBlocks⟩
    | map m =>
      dsimp only at h ⊢
      cases hElement : Branch.elementWorkflow ⟨bname, ⟨root, states⟩⟩ with
      | some element =>
        rw [hElement] at h
        have hLifted := Lifting.of_bind_pure_pair h
        have hMap : stateSteps sc root (.map { m with body := .workflow element, next := none }) =
            ⟨lifted, .ok steps⟩ := hLifted
        refine ⟨[steps], by simp, by simpa using nodup_keys_liftedMap hLifted, .cons ?_ .nil⟩
        exact hR.plain (by simp [State.kind]) hMap
      | none =>
        rw [hElement] at h
        have hMap := Lifting.of_bind_pure_pair h
        refine ⟨[steps], by simp, by simpa using nodup_keys_mapSteps hMap, .cons ?_ .nil⟩
        exact hR.plain (by simp [State.kind]) hMap
    | _ => simp [Lifting.ofExcept] at h

end

end StepProgram

end Orchestration
