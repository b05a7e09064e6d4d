import Orchestration.Proofs.Basic
import Orchestration.Proofs.StepProgram.Calls
import Orchestration.Target.StepProgram.Generator

/-!
# Where documents call other documents

`Workflow.mapSites` lists the maps that the document of a workflow calls another document for, each
with the id of that document and the workflow that it runs for each element: the nested workflow of
the map, or the element workflow of a branch that starts with the map.

When a workflow is encoded, the bodies at its sites are lifted, and its document calls them there
(`Workflow.stepDocument_eq_ok`).
-/

namespace Orchestration

namespace StepProgram

/-! ## Sites -/

/-- The site of a map if its body is a workflow. -/
def mapSite (sc : Scope) (name : String) (m : MapState) : List (String × Workflow) :=
  match m.body with
  | .activity _ => []
  | .workflow body => [(liftedId sc name, body)]

mutual

/-- The sites in states. -/
def statesSites (sc : Scope) : List (String × State) → List (String × Workflow)
  | [] => []
  | (name, s) :: rest => stateSites sc name s ++ statesSites sc rest

/-- The sites in a state. -/
def stateSites (sc : Scope) (name : String) : State → List (String × Workflow)
  | .map m => mapSite sc name m
  | .parallel ⟨branches, _⟩ => branchesSites sc name branches
  | .task _ | .switch _ | .repeat _ | .loop _ => []

/-- The sites in the branches of a state. -/
def branchesSites (sc : Scope) (name : String) : List Branch → List (String × Workflow)
  | [] => []
  | b :: rest =>
    branchSites (sc.inBranch (sc.name (name ++ "_" ++ b.key))) b ++ branchesSites sc name rest

/-- The sites in a branch, which starts with a task or a map. -/
def branchSites (sc : Scope) : Branch → List (String × Workflow)
  | ⟨bname, ⟨root, states⟩⟩ =>
    match Entries.get? root states with
    | some (.task _) => statesSites sc states
    | some (.map m) =>
      match Branch.elementWorkflow ⟨bname, ⟨root, states⟩⟩ with
      | some element => [(liftedId sc root, element)]
      | none => mapSite sc root m
    | _ => []

end

/-! ## Encoding at the sites -/

namespace Lifting

/-- A result is reached, with these bodies lifted, if both parts of the way there reach theirs. -/
theorem bind_eq_ok_iff {α β : Type} {x : Lifting α} {f : α → Lifting β}
    {lifted : List (String × Workflow)} {b : β} :
    (x >>= f) = ⟨lifted, .ok b⟩ ↔
      ∃ l₁ a l₂, x = ⟨l₁, .ok a⟩ ∧ f a = ⟨l₂, .ok b⟩ ∧ l₁ ++ l₂ = lifted := by
  obtain ⟨l₁, result⟩ := x
  cases result with
  | error e => simp [bind]
  | ok a =>
    cases hf : f a with
    | mk l₂ result =>
      simp only [bind, hf, Lifting.mk.injEq, Except.ok.injEq]
      constructor
      · rintro ⟨rfl, rfl⟩
        exact ⟨l₁, a, l₂, ⟨rfl, rfl⟩, hf, rfl⟩
      · rintro ⟨_, _, _, ⟨rfl, rfl⟩, hf', rfl⟩
        rw [hf, Lifting.mk.injEq] at hf'
        exact ⟨by rw [hf'.1], hf'.2⟩

theorem pure_eq_ok_iff {α : Type} {a b : α} {lifted : List (String × Workflow)} :
    (pure a : Lifting α) = ⟨lifted, .ok b⟩ ↔ lifted = [] ∧ a = b := by
  simp [pure, eq_comm]

theorem ofExcept_eq_ok_iff {α : Type} {x : Except CompileError α} {b : α}
    {lifted : List (String × Workflow)} :
    ofExcept x = ⟨lifted, .ok b⟩ ↔ lifted = [] ∧ x = .ok b := by
  simp [ofExcept, eq_comm]

/-- What is returned beside a result lifts nothing more. -/
theorem of_bind_pure_pair {α β : Type} {x : Lifting α} {c d : β} {a : α}
    {lifted : List (String × Workflow)}
    (h : (x >>= fun a => pure (a, c)) = ⟨lifted, .ok (a, d)⟩) : x = ⟨lifted, .ok a⟩ := by
  obtain ⟨l₁, a', _, hx, hPure, rfl⟩ := bind_eq_ok_iff.mp h
  obtain ⟨rfl, hPair⟩ := pure_eq_ok_iff.mp hPure
  cases hPair
  rw [hx, List.append_nil]

end Lifting

variable {sc : Scope} {lifted : List (String × Workflow)}

/-- Steps whose calls are those of the bodies that were lifted for them, at these sites. -/
def CallsSites (p : StepProgram) (lifted sites : List (String × Workflow)) : Prop :=
  lifted = sites ∧ stepCalls p = sites.map Prod.fst

theorem calls_post {activity result : String} {payload : Template} {call : Step}
    (h : sc.post activity payload result = .ok call) : call.calls = [] := by
  obtain ⟨address, -, hPost⟩ := Orchestration.bind_eq_ok_iff.mp h
  cases Orchestration.pure_eq_ok_iff.mp hPost
  rfl

theorem stepCalls_taskSteps {name : String} {t : TaskState} {p : StepProgram}
    (h : taskSteps sc name t = .ok p) : stepCalls p = [] := by
  obtain ⟨call, hCall, hPure⟩ := Orchestration.bind_eq_ok_iff.mp h
  cases Orchestration.pure_eq_ok_iff.mp hPure
  simp [calls_post hCall]

theorem chainSteps_cons_eq_ok_iff {name : String} {t : TaskState} {rest : List (String × TaskState)}
    {p : StepProgram} :
    chainSteps sc ((name, t) :: rest) = .ok p ↔
      ∃ steps, taskSteps sc name t = .ok steps ∧ ∃ more, chainSteps sc rest = .ok more ∧
        steps ++ more = p := by
  rw [chainSteps]
  simp only [Orchestration.bind_eq_ok_iff, Orchestration.pure_eq_ok_iff]

/-- The steps of a map are those of one of the two kinds. -/
theorem mapSteps_eq_ok {name : String} {m : MapState} {p : StepProgram}
    (h : mapSteps sc name m = ⟨lifted, .ok p⟩) :
    (∃ activity, m.body = .activity activity ∧ lifted = [] ∧ inlineMap sc name m activity = .ok p) ∨
      ∃ body, m.body = .workflow body ∧ liftedMap sc name m m.next body = ⟨lifted, .ok p⟩ := by
  rw [mapSteps] at h
  cases hBody : m.body with
  | activity activity =>
    rw [hBody] at h
    exact .inl ⟨activity, rfl, Lifting.ofExcept_eq_ok_iff.mp h⟩
  | workflow body =>
    rw [hBody] at h
    exact .inr ⟨body, rfl, h⟩

theorem stepCalls_chainSteps {tasks : List (String × TaskState)} {p : StepProgram}
    (h : chainSteps sc tasks = .ok p) : stepCalls p = [] := by
  induction tasks generalizing p with
  | nil =>
    cases h
    rfl
  | cons t rest ih =>
    obtain ⟨steps, hSteps, more, hMore, rfl⟩ := chainSteps_cons_eq_ok_iff.mp h
    rw [stepCalls_append, stepCalls_taskSteps hSteps, ih hMore, List.append_nil]

theorem stepCalls_loopSteps {name : String} {l : LoopState} {p : StepProgram}
    (h : loopSteps sc name l = .ok p) : stepCalls p = [] := by
  obtain ⟨call, hCall, hPure⟩ := Orchestration.bind_eq_ok_iff.mp h
  cases Orchestration.pure_eq_ok_iff.mp hPure
  simp [calls_post hCall]

theorem stepCalls_inlineMap {name activity : String} {m : MapState} {p : StepProgram}
    (h : inlineMap sc name m activity = .ok p) : stepCalls p = [] := by
  obtain ⟨call, hCall, hPure⟩ := Orchestration.bind_eq_ok_iff.mp h
  cases Orchestration.pure_eq_ok_iff.mp hPure
  simp [calls_post hCall]

theorem liftedMap_callsSites {name : String} {m : MapState} {next : Option String} {body : Workflow}
    {p : StepProgram} (h : liftedMap sc name m next body = ⟨lifted, .ok p⟩) :
    CallsSites p lifted [(liftedId sc name, body)] := by
  obtain ⟨l₁, a, l₂, hLift, hPure, rfl⟩ := Lifting.bind_eq_ok_iff.mp h
  obtain ⟨rfl, rfl⟩ := Lifting.pure_eq_ok_iff.mp hPure
  cases hLift
  exact ⟨rfl, rfl⟩

theorem mapSteps_callsSites {name : String} {m : MapState} {p : StepProgram}
    (h : mapSteps sc name m = ⟨lifted, .ok p⟩) : CallsSites p lifted (mapSite sc name m) := by
  rcases mapSteps_eq_ok h with ⟨activity, hBody, rfl, hInline⟩ | ⟨body, hBody, hLifted⟩
  · rw [mapSite, hBody]
    exact ⟨rfl, stepCalls_inlineMap hInline⟩
  · rw [mapSite, hBody]
    exact liftedMap_callsSites hLifted

theorem stepCalls_finishSteps (slot payloadVar : String) (array : Option String) :
    stepCalls (finishSteps slot payloadVar array) = [] := by
  cases array <;> rfl

/-- The steps around those of a branch call nothing. -/
theorem stepCalls_wrapBranch {state slot root : String} {steps : StepProgram}
    {array : Option String} {branch : String × StepProgram}
    (h : wrapBranch sc state slot root steps array = .ok branch) :
    stepCalls branch.2 = stepCalls steps := by
  unfold wrapBranch at h
  split at h
  · cases h
  · cases h
    rw [stepCalls, stepCalls_append, stepCalls_finishSteps, List.append_nil]
    rfl

mutual

theorem statesSteps_callsSites {sc : Scope} {lifted : List (String × Workflow)}
    {taken : List String} {states : List (String × State)} {p : StepProgram}
    (h : statesSteps sc taken states = ⟨lifted, .ok p⟩) :
    CallsSites p lifted (statesSites sc states) := by
  cases states with
  | nil =>
    cases h
    exact ⟨rfl, rfl⟩
  | cons e rest =>
    obtain ⟨name, s⟩ := e
    rw [statesSteps] at h
    obtain ⟨l₁, steps, l₂, hState, hTail, rfl⟩ := Lifting.bind_eq_ok_iff.mp h
    obtain ⟨_, names, l₃, hNames, hLast, rfl⟩ := Lifting.bind_eq_ok_iff.mp hTail
    obtain ⟨rfl, -⟩ := Lifting.ofExcept_eq_ok_iff.mp hNames
    obtain ⟨l₄, more, _, hRest, hPure, rfl⟩ := Lifting.bind_eq_ok_iff.mp hLast
    obtain ⟨rfl, rfl⟩ := Lifting.pure_eq_ok_iff.mp hPure
    obtain ⟨rfl, hSteps⟩ := stateSteps_callsSites hState
    obtain ⟨rfl, hMore⟩ := statesSteps_callsSites hRest
    rw [statesSites]
    refine ⟨by simp, ?_⟩
    rw [stepCalls_append, hSteps, hMore, List.map_append]

theorem stateSteps_callsSites {sc : Scope} {lifted : List (String × Workflow)} {name : String}
    {s : State} {p : StepProgram}
    (h : stateSteps sc name s = ⟨lifted, .ok p⟩) : CallsSites p lifted (stateSites sc name s) := by
  cases s with
  | task t =>
    obtain ⟨rfl, hTask⟩ := Lifting.ofExcept_eq_ok_iff.mp h
    exact ⟨rfl, stepCalls_taskSteps hTask⟩
  | «switch» s =>
    obtain ⟨rfl, rfl⟩ := Lifting.pure_eq_ok_iff.mp h
    exact ⟨rfl, rfl⟩
  | map m => exact mapSteps_callsSites h
  | «repeat» r =>
    obtain ⟨rfl, hChain⟩ := Lifting.ofExcept_eq_ok_iff.mp h
    exact ⟨rfl, stepCalls_chainSteps hChain⟩
  | loop l =>
    obtain ⟨rfl, hLoop⟩ := Lifting.ofExcept_eq_ok_iff.mp h
    exact ⟨rfl, stepCalls_loopSteps hLoop⟩
  | parallel p =>
    obtain ⟨branches, next⟩ := p
    rw [stateSteps] at h
    obtain ⟨l₁, steps, _, hBranches, hPure, rfl⟩ := Lifting.bind_eq_ok_iff.mp h
    obtain ⟨rfl, rfl⟩ := Lifting.pure_eq_ok_iff.mp hPure
    obtain ⟨rfl, hSteps⟩ := branchesSteps_callsSites hBranches
    rw [stateSites]
    refine ⟨by simp, ?_⟩
    rw [← hSteps]
    simp [parallelSteps]

theorem branchesSteps_callsSites {sc : Scope} {lifted : List (String × Workflow)} {name : String}
    {branches : List Branch} {programs : List (String × StepProgram)}
    (h : branchesSteps sc name branches = ⟨lifted, .ok programs⟩) :
    lifted = branchesSites sc name branches ∧
      branchCalls programs = (branchesSites sc name branches).map Prod.fst := by
  cases branches with
  | nil =>
    cases h
    exact ⟨rfl, rfl⟩
  | cons b rest =>
    rw [branchesSteps] at h
    obtain ⟨l₁, ⟨steps, array⟩, l₂, hBranch, hTail, rfl⟩ := Lifting.bind_eq_ok_iff.mp h
    obtain ⟨_, branch, l₃, hWrap, hLast, rfl⟩ := Lifting.bind_eq_ok_iff.mp hTail
    obtain ⟨rfl, hAround⟩ := Lifting.ofExcept_eq_ok_iff.mp hWrap
    obtain ⟨l₄, more, _, hRest, hPure, rfl⟩ := Lifting.bind_eq_ok_iff.mp hLast
    obtain ⟨rfl, rfl⟩ := Lifting.pure_eq_ok_iff.mp hPure
    obtain ⟨rfl, hSteps⟩ := branchSteps_callsSites hBranch
    obtain ⟨rfl, hMore⟩ := branchesSteps_callsSites hRest
    rw [branchesSites]
    refine ⟨by simp, ?_⟩
    rw [branchCalls, stepCalls_wrapBranch hAround, hSteps, hMore, List.map_append]

theorem branchSteps_callsSites {sc : Scope} {lifted : List (String × Workflow)} {name : String}
    {b : Branch} {steps : StepProgram} {array : Option String}
    (h : branchSteps sc name b = ⟨lifted, .ok (steps, array)⟩) :
    CallsSites steps lifted (branchSites sc b) := by
  obtain ⟨bname, root, states⟩ := b
  rw [branchSteps] at h
  rw [branchSites]
  cases hRoot : Entries.get? root states with
  | none => simp [hRoot, Lifting.ofExcept] at h
  | some s =>
    rw [hRoot] at h
    cases s with
    | task t => exact statesSteps_callsSites (Lifting.of_bind_pure_pair h)
    | map m =>
      dsimp only at h ⊢
      cases hElement : Branch.elementWorkflow ⟨bname, ⟨root, states⟩⟩ with
      | some element =>
        rw [hElement] at h
        exact liftedMap_callsSites (Lifting.of_bind_pure_pair h)
      | none =>
        rw [hElement] at h
        exact mapSteps_callsSites (Lifting.of_bind_pure_pair h)
    | _ => simp [Lifting.ofExcept] at h

end

/-! ## Levels of sites -/

theorem levelsOfStates_insert_task (name : String) (t : TaskState)
    (states : List (String × State)) :
    levelsOfStates (Entries.insert name (.task t) states) ≤ levelsOfStates states := by
  induction states with
  | nil => simp [Entries.insert, levelsOfStates, State.levels]
  | cons e rest ih =>
    obtain ⟨k, s⟩ := e
    rw [Entries.insert]
    split
    · rw [levelsOfStates, levelsOfStates, State.levels]
      omega
    · rw [levelsOfStates, levelsOfStates]
      omega

/-- The element workflow of a branch nests no deeper than the branch. -/
theorem levels_elementWorkflow_le {b : Branch} {element : Workflow}
    (h : b.elementWorkflow = some element) : element.levels ≤ b.workflow.levels := by
  obtain ⟨bname, root, states⟩ := b
  obtain ⟨t, -, rfl⟩ := Option.map_eq_some_iff.mp h
  exact Nat.succ_le_succ (levelsOfStates_insert_task root t states)

theorem levels_le_of_mem_mapSite {name : String} {m : MapState} {site : String × Workflow}
    (h : site ∈ mapSite sc name m) : site.2.levels ≤ (State.map m).levels := by
  rw [mapSite] at h
  obtain ⟨body, array, commonParams, maxConcurrency, next⟩ := m
  cases body with
  | activity activity => cases h
  | workflow body =>
    obtain rfl := List.mem_singleton.mp h
    exact Nat.le_refl _

theorem levels_le_of_get? {name : String} {s : State} {states : List (String × State)}
    (h : Entries.get? name states = some s) : s.levels ≤ levelsOfStates states := by
  induction states with
  | nil => cases h
  | cons e rest ih =>
    obtain ⟨k, s'⟩ := e
    rw [Entries.get?] at h
    rw [levelsOfStates]
    split at h
    · cases h
      exact Nat.le_max_left _ _
    · exact Nat.le_trans (ih h) (Nat.le_max_right _ _)

mutual

theorem levels_le_of_mem_statesSites {sc : Scope} {states : List (String × State)}
    {site : String × Workflow} (h : site ∈ statesSites sc states) :
    site.2.levels ≤ levelsOfStates states := by
  cases states with
  | nil => cases h
  | cons e rest =>
    obtain ⟨name, s⟩ := e
    rw [statesSites] at h
    rw [levelsOfStates]
    rcases List.mem_append.mp h with hState | hRest
    · exact Nat.le_trans (levels_le_of_mem_stateSites hState) (Nat.le_max_left _ _)
    · exact Nat.le_trans (levels_le_of_mem_statesSites hRest) (Nat.le_max_right _ _)

theorem levels_le_of_mem_stateSites {sc : Scope} {name : String} {s : State}
    {site : String × Workflow} (h : site ∈ stateSites sc name s) : site.2.levels ≤ s.levels := by
  cases s with
  | map m => exact levels_le_of_mem_mapSite h
  | parallel p =>
    obtain ⟨branches, next⟩ := p
    exact levels_le_of_mem_branchesSites h
  | _ => cases h

theorem levels_le_of_mem_branchesSites {sc : Scope} {name : String} {branches : List Branch}
    {site : String × Workflow} (h : site ∈ branchesSites sc name branches) :
    site.2.levels ≤ levelsOfBranches branches := by
  cases branches with
  | nil => cases h
  | cons b rest =>
    rw [branchesSites] at h
    obtain ⟨bname, w⟩ := b
    rw [levelsOfBranches]
    rcases List.mem_append.mp h with hBranch | hRest
    · exact Nat.le_trans (levels_le_of_mem_branchSites hBranch) (Nat.le_max_left _ _)
    · exact Nat.le_trans (levels_le_of_mem_branchesSites hRest) (Nat.le_max_right _ _)

theorem levels_le_of_mem_branchSites {sc : Scope} {b : Branch} {site : String × Workflow}
    (h : site ∈ branchSites sc b) : site.2.levels ≤ b.workflow.levels := by
  obtain ⟨bname, root, states⟩ := b
  rw [branchSites] at h
  cases hRoot : Entries.get? root states with
  | none => simp [hRoot] at h
  | some s =>
    rw [hRoot] at h
    cases s with
    | task t => exact Nat.le_succ_of_le (levels_le_of_mem_statesSites h)
    | map m =>
      dsimp only at h
      split at h
      · rename_i element hElement
        obtain rfl := List.mem_singleton.mp h
        exact levels_elementWorkflow_le hElement
      · have hMap := levels_le_of_mem_mapSite h
        have hState := levels_le_of_get? hRoot
        show site.2.levels ≤ levelsOfStates states + 1
        omega
    | _ => cases h

end

end StepProgram

namespace Workflow

open StepProgram

/-- The maps that the document of a workflow calls other documents for. -/
def mapSites (sc : Scope) (w : Workflow) : List (String × Workflow) := statesSites sc w.states

theorem levels_pos (w : Workflow) : 0 < w.levels := by
  obtain ⟨root, states⟩ := w
  exact Nat.succ_pos _

theorem levels_lt_of_mem_mapSites {sc : Scope} {w : Workflow} {site : String × Workflow}
    (h : site ∈ w.mapSites sc) : site.2.levels < w.levels := by
  obtain ⟨root, states⟩ := w
  exact Nat.lt_succ_of_le (levels_le_of_mem_statesSites h)

/-- Bodies are lifted at the sites of a workflow, and its document calls them there. -/
theorem stepDocument_eq_ok {sc : Scope} {w : Workflow} {lifted : List (String × Workflow)}
    {doc : Json} (h : w.stepDocument sc = ⟨lifted, .ok doc⟩) :
    lifted = w.mapSites sc ∧ doc.mapCalls = (w.mapSites sc).map fun site => Json.str site.1 := by
  obtain ⟨l₁, p, _, hProgram, hPure, rfl⟩ := Lifting.bind_eq_ok_iff.mp h
  obtain ⟨rfl, rfl⟩ := Lifting.pure_eq_ok_iff.mp hPure
  obtain ⟨rfl, hCalls⟩ := statesSteps_callsSites hProgram
  refine ⟨List.append_nil _, ?_⟩
  rw [mapCalls_toJson, hCalls, List.map_map]
  rfl

/-- The maps that other documents are called for, in the document of `w` and in
those of their bodies. -/
def liftedMaps (resolver : Resolver) (id : String) (w : Workflow) : List (String × Workflow) :=
  (w.mapSites (.top resolver id)).attach.flatMap fun site =>
    site.1 :: site.1.2.liftedMaps resolver site.1.1
termination_by w.levels
decreasing_by exact levels_lt_of_mem_mapSites site.2

/-- A map, and the maps that other documents are called for when its body runs. -/
def mapsFrom (resolver : Resolver) (site : String × Workflow) : List (String × Workflow) :=
  site :: site.2.liftedMaps resolver site.1

theorem liftedMaps_eq (resolver : Resolver) (id : String) (w : Workflow) :
    w.liftedMaps resolver id = (w.mapSites (.top resolver id)).flatMap (mapsFrom resolver) := by
  rw [liftedMaps]
  show (w.mapSites (.top resolver id)).attach.flatMap (fun site => mapsFrom resolver site.1) = _
  rw [List.flatMap_subtype (g := mapsFrom resolver) (fun _ _ => rfl), List.unattach_attach]

theorem mem_liftedMaps_of_mem_mapSites {resolver : Resolver} {id : String} {w : Workflow}
    {site : String × Workflow} (h : site ∈ w.mapSites (.top resolver id)) :
    site ∈ w.liftedMaps resolver id := by
  rw [liftedMaps_eq, List.mem_flatMap]
  exact ⟨site, h, List.mem_cons_self⟩

/-- The maps of a body are among those of the workflow that it is lifted from. -/
theorem mem_liftedMaps_trans {resolver : Resolver} {id : String} {w : Workflow}
    {site inside : String × Workflow} (h : site ∈ w.liftedMaps resolver id)
    (hInside : inside ∈ site.2.liftedMaps resolver site.1) : inside ∈ w.liftedMaps resolver id := by
  rw [liftedMaps_eq, List.mem_flatMap] at h ⊢
  obtain ⟨top, hTop, hMem⟩ := h
  refine ⟨top, hTop, List.mem_cons_of_mem _ ?_⟩
  rcases List.mem_cons.mp hMem with rfl | hBelow
  · exact hInside
  · exact mem_liftedMaps_trans hBelow hInside
termination_by w.levels
decreasing_by exact levels_lt_of_mem_mapSites hTop

end Workflow

end Orchestration
