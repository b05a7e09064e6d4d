import Orchestration.Proofs.StateMachine.Simulation

/-!
# The item inputs that documents describe

In a document texts say what a map state gives its iterations: nothing but the item if the state has
no parameters, else an object with a field for each of them. A parameter whose name ends with `.$`
is looked up at the reference that is its value; any other stands for itself.

* `StateMachine.itemInputs`: the inputs of all iterations, read off the JSON value of a state.
* `StateMachine.itemInput_toJson`: texts say what the state says that they were written for.
* `MapState.itemInputs_encodeState`, `MapState.itemInputs_branchMachine`: what is encoded for a map,
  be it a state or the root of a branch, gives the inputs of the map.
-/

namespace Orchestration

namespace StateMachine

variable {data item payload : Json} {m : MapState}

/-! ## Reading documents -/

/-- The value at a reference, by its text. -/
def readPath (data : Json) (text : String) : Option Json := do
  let path ← text.toList.dropPrefix? "$.".toList
  (Path.get data (.ofList path)).toOption

/-- The value of a source, by its text: the item of the iteration, or a value in the data. -/
def lookUp (data item : Json) (text : String) : Option Json :=
  if text = "$$.Map.Item.Value" then some item else readPath data text

/-- What a parameter comes to: its value is looked up if its name asks for that. -/
def parameterField (data item : Json) (field : String × Json) : Option (String × Json) :=
  match field.1.toList.dropSuffix? ".$".toList with
  | some name => do some (.ofList name, ← lookUp data item (← field.2.text?))
  | none => some field

/-- The input of the iteration for an item. -/
def itemInput (data state item : Json) : Option Json :=
  match state.field? "Parameters" with
  | none => some item
  | some parameters => do
    let fields ← (← parameters.fields?).mapM (parameterField data item)
    some (.obj (Entries.ofWrites fields))

/-- The inputs of all iterations, in the order of the items. -/
def itemInputs (data state : Json) : Option (List Json) := do
  let items ← (← readPath data (← (← state.field? "ItemsPath").text?)).items?
  items.mapM (itemInput data state)

/-! ## Texts and what they were written for -/

/-- The sources that maps are encoded with. -/
inductive IsSource : ParameterSource → Prop
  | element : IsSource .element
  | path (p : String) : IsSource (.place (.path p))

theorem readPath_text (data : Json) (path : String) :
    readPath data (Reference.path path).text = (Reference.path path).read data := by
  have hText : (Reference.path path).text.toList = "$.".toList ++ path.toList :=
    String.toList_append
  rw [readPath, hText, List.dropPrefix?_append_of_beq _ (beq_self_eq_true _), Reference.read,
    Option.bind_eq_bind, Option.bind_some, String.ofList_toList]

theorem lookUp_text {s : ParameterSource} (h : IsSource s) :
    lookUp data item s.text = s.read data item := by
  cases h with
  | element => rfl
  | path p =>
    -- The second character tells the text of a path from that of the item.
    have hNe : (Reference.path p).text ≠ "$$.Map.Item.Value" := by
      intro hEq
      have hChars := congrArg (fun s => s.toList[1]?) hEq
      simp [Reference.text] at hChars
    exact (if_neg hNe).trans (readPath_text data p)

theorem parameterField_text (name : String) {s : ParameterSource} (h : IsSource s) :
    parameterField data item (name ++ ".$", .str s.text) = (s.read data item).map fun v =>
      (name, v) := by
  have hName : (name ++ ".$").toList.dropSuffix? ".$".toList = some name.toList := by
    rw [List.dropSuffix?_eq_some_iff]
    exact ⟨_, String.toList_append, beq_self_eq_true _⟩
  rw [parameterField, hName]
  simp [Json.text?, lookUp_text h, Option.map_eq_bind]

theorem parameterFields_text {ps : List (String × ParameterSource)} (h : ∀ e ∈ ps, IsSource e.2) :
    (ps.map fun e => (e.1 ++ ".$", Json.str e.2.text)).mapM (parameterField data item) =
      readAll (ParameterSource.read data item) ps := by
  induction ps with
  | nil => rfl
  | cons e rest ih =>
    obtain ⟨name, s⟩ := e
    obtain ⟨hHead, hRest⟩ := List.forall_mem_cons.mp h
    rw [List.map_cons, List.mapM_cons, parameterField_text name hHead, ih hRest, readAll]
    cases s.read data item <;> rfl

/-- The input of an iteration is the one that the state says, whatever else is in its value. -/
theorem itemInput_toJson {ps : List (String × ParameterSource)} (h : ∀ e ∈ ps, IsSource e.2)
    (items : Reference) (iterator : Machine) (maxConcurrency : Option Nat) (result : ResultPlace)
    (next : Option String) :
    itemInput data (MachineState.map items ps iterator maxConcurrency result next).toJson item =
      iterationInput data ps item := by
  cases ps with
  | nil =>
    have hNone :
        (MachineState.map items [] iterator maxConcurrency result next).toJson.field? "Parameters" =
        none := by
      cases maxConcurrency <;> cases result <;> cases next <;> rfl
    rw [itemInput, hNone]
    rfl
  | cons e rest =>
    have hSome :
        (MachineState.map items (e :: rest) iterator maxConcurrency result next).toJson.field?
          "Parameters" = some (.obj ((e :: rest).map fun e => (e.1 ++ ".$", .str e.2.text))) := rfl
    have hInput : iterationInput data (e :: rest) item =
        (readAll (ParameterSource.read data item) (e :: rest)).map fun es =>
          .obj (Entries.ofWrites es) := rfl
    rw [itemInput, hSome, hInput, ← parameterFields_text h, Option.map_eq_bind]
    rfl

/-! ## What maps are encoded as -/

theorem isSource_of_mem_parameters : ∀ e ∈ parameters m, IsSource e.2 := by
  by_cases hSome : m.paramPaths = []
  · rw [parameters, hSome]
    exact List.forall_mem_nil _
  · rw [parameters_eq hSome]
    exact forall_mem_elementFields .element fun p _ => .path p

/-- The state of a map gives its iterations the inputs of the map. -/
theorem itemInputs_mapState {inputs : List Json} (h : m.inputs payload = .ok inputs)
    (iterator : Machine) (result : ResultPlace) (next : Option String) :
    itemInputs payload (mapState m iterator result next).toJson = some inputs := by
  obtain ⟨v, elements, hGet, hItems, hInputs⟩ := MapState.inputs_eq_ok h
  have hPath : (mapState m iterator result next).toJson.field? "ItemsPath" =
      some (.str (Reference.path m.array).text) := rfl
  have hEach : itemInput payload (mapState m iterator result next).toJson =
      iterationInput payload (parameters m) := by
    funext item
    exact itemInput_toJson isSource_of_mem_parameters _ _ _ _ _
  rw [itemInputs, hPath, hEach]
  simp [Json.text?, readPath_text, Reference.read_path hGet, hItems, hInputs]

end StateMachine

open StateMachine

variable {resolver : Resolver} {m : MapState} {payload : Json} {inputs : List Json}

theorem MapState.itemInputs_encodeState (h : m.inputs payload = .ok inputs) {name : String}
    {documents : List Fragment}
    (hDocuments : StateMachine.encodeState resolver name (.map m) = .ok documents) :
    ∃ state, documents = [(name, state)] ∧ itemInputs payload state = some inputs := by
  rw [StateMachine.encodeState] at hDocuments
  obtain ⟨fs, hFragments, hPure⟩ := bind_eq_ok_iff.mp hDocuments
  obtain ⟨iterator, -, rfl⟩ := fragments_map_eq_ok_iff.mp hFragments
  exact ⟨_, (pure_eq_ok_iff.mp hPure).symm, itemInputs_mapState h _ _ _⟩

theorem MapState.itemInputs_branchMachine (h : m.inputs payload = .ok inputs) {name : String}
    {b : Branch} {machine : Machine} (hRoot : b.workflow.rootState? = some (.map m))
    (hMachine : branchMachine resolver name b = .ok machine) :
    ∃ states state, machine.toJson.field? "States" = some states ∧
      states.field? b.workflow.root = some state ∧ itemInputs payload state = some inputs := by
  rcases branchMachine_cases hMachine with ⟨t, hTask, -⟩ | ⟨m', activity, iterator, hMap, -, rfl, -⟩
  · rw [hRoot] at hTask
    cases hTask
  · obtain rfl : m = m' := State.map.inj (Option.some.inj (hRoot.symm.trans hMap))
    refine ⟨_, _, rfl, ?_,
      itemInputs_mapState h iterator .output (some (b.workflow.root ++ "_shape"))⟩
    simp [Json.field?, machineStatesToJson, Entries.get?]

end Orchestration
