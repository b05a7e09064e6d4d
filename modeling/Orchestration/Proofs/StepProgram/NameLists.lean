import Orchestration.Proofs.Target.Names

/-!
# The names of all steps of a document

The names of the fragments of a list are checked against each other, and the names of the
steps inside a fragment differ by their endings. Nothing is checked between lists, so a name
may stand in two of them.

* `Workflow.nameLists`: the names in the document of a workflow, list by list.
* `Json.stepNames`: the names that stand in a document.
* `Workflow.stepNames_nodup_iff`: each list of a document has distinct names, and all names are
  distinct if and only if no two lists share one.
-/

namespace Orchestration

/-! ## Names in documents -/

/-- The names of all steps of a program, at every depth. -/
def StepProgram.names (p : StepProgram) : List String := p.lists.flatMap Entries.keys

namespace Json

/-- The names of the fields of a value. -/
def fieldNames : Json → List String
  | .obj fields => Entries.keys fields
  | _ => []

/-- The names of the steps in a document, at every depth. -/
def stepNames (doc : Json) : List String := doc.stepLists.flatMap fun l => l.flatMap fieldNames

/-- Empty lists have no names. -/
theorem flatMap_filled (lists : List (List Json)) :
    (filled lists).flatMap (fun l => l.flatMap fieldNames) = lists.flatMap fun l =>
      l.flatMap fieldNames := by
  induction lists with
  | nil => rfl
  | cons l rest ih =>
    rw [← List.singleton_append, filled_append, List.flatMap_append, List.flatMap_append, ih]
    cases l <;> rfl

end Json

namespace StepProgram

theorem fieldNames_stepsToJson (p : StepProgram) :
    (stepsToJson p).flatMap Json.fieldNames = Entries.keys p := by
  induction p with
  | nil => rfl
  | cons step rest ih =>
    rw [stepsToJson, List.flatMap_cons, ih]
    rfl

theorem stepNames_mainDocument (main : StepProgram) :
    (mainDocument main).stepNames = main.names := by
  rw [Json.stepNames, ← Json.flatMap_filled, filled_stepLists_mainDocument, Json.flatMap_filled,
    List.flatMap_map, names]
  simp only [fieldNames_stepsToJson]

/-! ## Names for workflows -/

/-- The names inside the steps of a map. -/
def mapNameLists (sc : Scope) (name : String) : MapBody → List (List String)
  | .activity _ =>
    [[sc.name (name ++ "_invoke"), sc.name (name ++ "_store")], [sc.name (name ++ "_append")]]
  | .workflow _ => [[sc.name (name ++ "_append")]]

mutual

/-- The names inside the steps for states that stand side by side, list by list. -/
def statesNameLists (sc : Scope) : List (String × State) → List (List String)
  | [] => []
  | (name, s) :: rest => stateNameLists sc name s ++ statesNameLists sc rest

def stateNameLists (sc : Scope) (name : String) : State → List (List String)
  | .loop _ => [[sc.name (name ++ "_invoke")]]
  | .map m => mapNameLists sc name m.body
  | .parallel ⟨branches, _⟩ => branchesNameLists sc name branches
  | .task _ | .switch _ | .repeat _ => []

def branchesNameLists (sc : Scope) (name : String) : List Branch → List (List String)
  | [] => []
  | b :: rest => branchNameLists sc (slotOf sc name b) b ++ branchesNameLists sc name rest

/-- The names of the steps of a branch with this slot, then those inside them. -/
def branchNameLists (sc : Scope) (slot : String) : Branch → List (List String)
  | ⟨bname, ⟨root, states⟩⟩ =>
    let own := (sc.inBranch slot).stepNames (Branch.standing ⟨bname, ⟨root, states⟩⟩)
    match Entries.get? root states with
    | some (.task _) =>
      ((slot ++ "_start") :: (own ++ [slot ++ "_done"])) ::
        statesNameLists (sc.inBranch slot) states
    | some (.map m) =>
      let body := match Branch.elementWorkflow ⟨bname, ⟨root, states⟩⟩ with
        | some element => .workflow element
        | none => m.body
      ((slot ++ "_start") :: (own ++ [slot ++ "_done", slot ++ "_unwrap"])) ::
        (mapNameLists (sc.inBranch slot) root body ++ [[slot ++ "_single"]])
    | _ => []

end

end StepProgram

open StepProgram in
/-- The names of the steps in the document of a workflow: those of the document
itself, then those inside. -/
def Workflow.nameLists (sc : Scope) (w : Workflow) : List (List String) :=
  (mainStart :: (sc.stepNames w.states ++ [mainEnd])) :: statesNameLists sc w.states

namespace StepProgram

/-! ## Names that the encoding gives -/

/-- The lists have these names, and no list has a name twice. -/
structure NamedBy (lists : List StepProgram) (names : List (List String)) : Prop where
  names : lists.map Entries.keys = names
  nodup : ∀ list ∈ lists, (Entries.keys list).Nodup

namespace NamedBy

variable {lists lists' : List StepProgram} {names names' : List (List String)}

theorem nil : NamedBy [] [] := ⟨rfl, by simp⟩

theorem append (h : NamedBy lists names) (h' : NamedBy lists' names') :
    NamedBy (lists ++ lists') (names ++ names') := by
  refine ⟨by rw [List.map_append, h.names, h'.names], fun list hList => ?_⟩
  rcases List.mem_append.mp hList with hFirst | hSecond
  · exact h.nodup list hFirst
  · exact h'.nodup list hSecond

theorem cons {p : StepProgram} (hNodup : (Entries.keys p).Nodup) (h : NamedBy lists names) :
    NamedBy (p :: lists) (Entries.keys p :: names) := by
  have hOne : NamedBy [p] [Entries.keys p] := ⟨rfl, by simpa using hNodup⟩
  exact hOne.append h

end NamedBy

variable {sc : Scope} {lifted : List (String × Workflow)}

theorem namedBy_inlineMap {name activity : String} {m : MapState} {p : StepProgram}
    (h : inlineMap sc name m activity = .ok p) :
    NamedBy (innerLists p) (mapNameLists sc name (.activity activity)) := by
  obtain ⟨url, -, rfl⟩ := inlineMap_eq_ok_iff.mp h
  have hEndings : (["_invoke", "_store"].map ident).Nodup := by decide
  have hNames := sc.nodup_name_append name hEndings
  refine ⟨rfl, ?_⟩
  simpa [Entries.keys] using hNames

theorem namedBy_liftedMap {name : String} {m : MapState} {next : Option String} {body : Workflow}
    {p : StepProgram}
    (h : liftedMap sc name m next body = ⟨lifted, .ok p⟩) :
    NamedBy (innerLists p) (mapNameLists sc name (.workflow body)) := by
  obtain ⟨-, rfl⟩ := liftedMap_eq_ok_iff.mp h
  refine ⟨rfl, ?_⟩
  simp [Entries.keys]

theorem namedBy_mapSteps {name : String} {m : MapState} {p : StepProgram}
    (h : mapSteps sc name m = ⟨lifted, .ok p⟩) :
    NamedBy (innerLists p) (mapNameLists sc name m.body) := by
  rcases mapSteps_eq_ok h with ⟨activity, hBody, -, hInline⟩ | ⟨body, hBody, hLifted⟩
  · rw [hBody]
    exact namedBy_inlineMap hInline
  · rw [hBody]
    exact namedBy_liftedMap hLifted

/-- The steps of calls that follow each other have no lists inside. -/
theorem innerLists_chainSteps {tasks : List (String × TaskState)} {p : StepProgram}
    (h : chainSteps sc tasks = .ok p) : innerLists p = [] := by
  induction tasks generalizing p with
  | nil =>
    cases h
    rfl
  | cons task rest ih =>
    obtain ⟨steps, hSteps, more, hMore, rfl⟩ := chainSteps_cons_eq_ok_iff.mp h
    rw [innerLists_append, (taskSteps_block hSteps).2, ih hMore, List.append_nil]

/-- The names around the states of a branch, and inside the step that takes the item
out of a single result. -/
theorem namedBy_wrapBranch {name slot root : String} {steps : StepProgram} {array : Option String}
    {program : String × StepProgram} {own : List String} {inside : List (List String)}
    (h : wrapBranch sc name slot root steps array = .ok program)
    (hNodup : (Entries.keys steps).Nodup) (hOwn : Entries.keys steps = own)
    (hInside : NamedBy (innerLists steps) inside) :
    NamedBy program.2.lists
      (((slot ++ "_start") ::
        (own ++ (slot ++ "_done") :: (array.map fun _ => slot ++ "_unwrap").toList)) ::
          (inside ++ (array.map fun _ => [slot ++ "_single"]).toList)) := by
  have hKeys := nodup_keys_wrapBranch h hNodup
  obtain ⟨-, rfl⟩ := wrapBranch_eq_ok_iff.mp h
  have hFinish : NamedBy (innerLists (finishSteps slot (sc.inBranch slot).payloadVar array))
      (array.map fun _ => [slot ++ "_single"]).toList := by
    cases array with
    | none => exact .nil
    | some array => exact .cons (by simp [Entries.keys]) .nil
  have hAll := (hInside.append hFinish).cons hKeys
  rw [← innerLists_append] at hAll
  cases array <;> simpa [Entries.keys, ← hOwn, finishSteps, lists] using hAll

mutual

theorem namedBy_statesSteps {sc : Scope} {lifted : List (String × Workflow)} {taken : List String}
    {states : List (String × State)} {p : StepProgram}
    (h : statesSteps sc taken states = ⟨lifted, .ok p⟩) :
    NamedBy (innerLists p) (statesNameLists sc states) := by
  cases states with
  | nil =>
    cases h
    exact .nil
  | cons e rest =>
    obtain ⟨name, s⟩ := e
    obtain ⟨_, steps, hState, _, -, _, more, hRest, -, rfl⟩ := statesSteps_cons_eq_ok_iff.mp h
    rw [innerLists_append, statesNameLists]
    exact (namedBy_stateSteps hState).append (namedBy_statesSteps hRest)

theorem namedBy_stateSteps {sc : Scope} {lifted : List (String × Workflow)} {name : String}
    {s : State} {p : StepProgram}
    (h : stateSteps sc name s = ⟨lifted, .ok p⟩) :
    NamedBy (innerLists p) (stateNameLists sc name s) := by
  cases s with
  | task t =>
    rw [(taskSteps_block (Lifting.ofExcept_eq_ok_iff.mp h).2).2]
    exact .nil
  | «switch» s =>
    obtain ⟨-, rfl⟩ := Lifting.pure_eq_ok_iff.mp h
    exact .nil
  | map m => exact namedBy_mapSteps h
  | «repeat» r =>
    rw [innerLists_chainSteps (Lifting.ofExcept_eq_ok_iff.mp h).2]
    exact .nil
  | loop l =>
    obtain ⟨url, -, rfl⟩ := loopSteps_eq_ok_iff.mp (Lifting.ofExcept_eq_ok_iff.mp h).2
    exact .cons (by simp [Entries.keys]) .nil
  | parallel p =>
    obtain ⟨branches, next⟩ := p
    rw [stateSteps] at h
    obtain ⟨l, programs, _, hBranches, hPure, -⟩ := Lifting.bind_eq_ok_iff.mp h
    obtain ⟨-, rfl⟩ := Lifting.pure_eq_ok_iff.mp hPure
    simpa [parallelSteps, stateNameLists] using namedBy_branchesSteps hBranches

theorem namedBy_branchesSteps {sc : Scope} {lifted : List (String × Workflow)} {name : String}
    {branches : List Branch} {programs : List (String × StepProgram)}
    (h : branchesSteps sc name branches = ⟨lifted, .ok programs⟩) :
    NamedBy (branchesLists programs) (branchesNameLists sc name branches) := by
  cases branches with
  | nil =>
    cases h
    exact .nil
  | cons b rest =>
    rw [branchesSteps] at h
    obtain ⟨_, ⟨steps, array⟩, _, hBranch, hTail, -⟩ := Lifting.bind_eq_ok_iff.mp h
    obtain ⟨_, program, _, hWrap, hLast, -⟩ := Lifting.bind_eq_ok_iff.mp hTail
    obtain ⟨_, more, _, hRest, hPure, -⟩ := Lifting.bind_eq_ok_iff.mp hLast
    obtain ⟨-, rfl⟩ := Lifting.pure_eq_ok_iff.mp hPure
    obtain ⟨-, hProgram⟩ := Lifting.ofExcept_eq_ok_iff.mp hWrap
    exact (namedBy_branch hBranch hProgram).append (namedBy_branchesSteps hRest)

theorem namedBy_branch {sc : Scope} {lifted : List (String × Workflow)} {name : String} {b : Branch}
    {steps : StepProgram} {array : Option String} {program : String × StepProgram}
    (h : branchSteps (sc.inBranch (slotOf sc name b)) name b = ⟨lifted, .ok (steps, array)⟩)
    (hWrap : wrapBranch sc name (slotOf sc name b) b.workflow.root steps array = .ok program) :
    NamedBy program.2.lists (branchNameLists sc (slotOf sc name b) b) := by
  have hOwn := keys_of_branchSteps h
  obtain ⟨_, hFlat, hNodup, -⟩ := branchSteps_blocks keptByEncoding_named h
  rw [← hFlat] at hNodup
  generalize slotOf sc name b = slot at *
  obtain ⟨bname, root, states⟩ := b
  rw [branchSteps] at h
  rw [branchNameLists]
  cases hRoot : Entries.get? root states with
  | none => simp [hRoot, Lifting.ofExcept] at h
  | some s =>
    rw [hRoot] at h
    cases s with
    | task t =>
      obtain ⟨_, _, _, hStates, hPure, -⟩ := Lifting.bind_eq_ok_iff.mp h
      obtain ⟨-, hPair⟩ := Lifting.pure_eq_ok_iff.mp hPure
      cases hPair
      simpa using namedBy_wrapBranch hWrap hNodup hOwn (namedBy_statesSteps hStates)
    | map m =>
      dsimp only at h ⊢
      cases hElement : Branch.elementWorkflow ⟨bname, ⟨root, states⟩⟩ with
      | some element =>
        rw [hElement] at h
        obtain ⟨_, _, _, hLifted, hPure, -⟩ := Lifting.bind_eq_ok_iff.mp h
        obtain ⟨-, hPair⟩ := Lifting.pure_eq_ok_iff.mp hPure
        cases hPair
        exact namedBy_wrapBranch hWrap hNodup hOwn (namedBy_liftedMap hLifted)
      | none =>
        rw [hElement] at h
        obtain ⟨_, _, _, hMap, hPure, -⟩ := Lifting.bind_eq_ok_iff.mp h
        obtain ⟨-, hPair⟩ := Lifting.pure_eq_ok_iff.mp hPure
        cases hPair
        exact namedBy_wrapBranch hWrap hNodup hOwn (namedBy_mapSteps hMap)
    | _ => simp [Lifting.ofExcept] at h

end

end StepProgram

namespace Workflow

open StepProgram

/-- The steps of the document of a workflow have the names for the workflow, list by list. No list
has a name twice, for that is an error. So all names of the document are distinct if and only if no
two of its lists share a name. -/
theorem stepNames_nodup_iff {resolver : Resolver} {id : String} {w : Workflow} {doc : Json}
    {g : Generator} (hDoc : (Generator.fresh resolver id).document w = (.ok doc, g)) :
    doc.stepNames = (w.nameLists (.top resolver id)).flatten ∧
    (∀ names ∈ w.nameLists (.top resolver id), names.Nodup) ∧
    (doc.stepNames.Nodup ↔ (w.nameLists (.top resolver id)).Pairwise List.Disjoint) := by
  obtain ⟨lifted, p, hProgram, rfl⟩ := document_eq_ok hDoc
  obtain ⟨hNodup, hFree, -⟩ := statesSteps_eq_ok hProgram
  have hMain : Entries.keys (mainSteps (ident w.root) p) =
      mainStart :: ((Scope.top resolver id).stepNames w.states ++ [mainEnd]) := by
    rw [← keys_of_statesSteps hProgram]
    simp [mainSteps, Entries.keys]
  have hNamed : NamedBy (mainSteps (ident w.root) p).lists (w.nameLists (.top resolver id)) := by
    have hKeys : (Entries.keys (mainSteps (ident w.root) p)).Nodup := by
      rw [hMain, ← keys_of_statesSteps hProgram]
      exact nodup_around hNodup (by decide) hFree
    have hInside := (namedBy_statesSteps hProgram).cons hKeys
    rw [hMain] at hInside
    simpa [lists, mainSteps, initAction, innerLists_append, nameLists] using hInside
  have hDistinct : ∀ names ∈ w.nameLists (.top resolver id), names.Nodup := by
    rw [← hNamed.names]
    exact List.forall_mem_map.mpr hNamed.nodup
  have hNames : (StepProgram.toJson (ident w.root) p).stepNames =
      (w.nameLists (.top resolver id)).flatten := by
    rw [toJson_eq_mainDocument, stepNames_mainDocument, names, ← hNamed.names, List.flatMap_def]
  refine ⟨hNames, hDistinct, ?_⟩
  rw [hNames, List.nodup_flatten, and_iff_right hDistinct]

end Workflow

/-! ## Names that meet -/

/-- A loop, and a task after it. -/
def loopThen (task : String) : Workflow :=
  ⟨"l", [("l", .loop ⟨"f", "xs", some task⟩), (task, .task ⟨"g", none⟩)]⟩

/-- All names of the document are distinct. -/
theorem Workflow.stepNames_nodup_loopThen :
    ∃ doc g, (StepProgram.Generator.fresh threeAddresses "flow").document (loopThen "t") =
      (.ok doc, g) ∧
      doc.stepNames.Nodup := by
  obtain ⟨doc, g, hDoc⟩ : ∃ doc g, (StepProgram.Generator.fresh threeAddresses "flow").document
      (loopThen "t") = (.ok doc, g) := ⟨_, _, rfl⟩
  obtain ⟨hNames, -, -⟩ := Workflow.stepNames_nodup_iff hDoc
  refine ⟨doc, g, hDoc, ?_⟩
  rw [hNames]
  decide

/-- A task after a loop may have the name of the step that is inside the loop. -/
theorem Workflow.not_stepNames_nodup_loopThen :
    (loopThen "l_invoke").validate = .ok () ∧
      ∃ doc g, (StepProgram.Generator.fresh threeAddresses "flow").document (loopThen "l_invoke") =
        (.ok doc, g) ∧ ¬ doc.stepNames.Nodup := by
  refine ⟨rfl, _, _, rfl, ?_⟩
  decide

end Orchestration
