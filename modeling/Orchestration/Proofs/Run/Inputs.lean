import Orchestration.Proofs.Json.Lens
import Orchestration.Proofs.Run.Transitions
import Orchestration.Proofs.Workflow.WellFormed

/-!
# What reaches the elements of a map

The inputs that a map makes of its elements. With common parameters an input is an object, in which
the element stands under a name of its own and each value under its path. A common parameter may
have the very name of the element; then the value stands where the element would.

* `get?_insertAll_shared`, `get?_insertAll_of_not_shared`: what is found among the common
  parameters.
* `MapState.BringsElement`, `MapState.BringsParams`: what an input is to have in it.
* `MapState.bringsElement_iff`: the values are always there, and the element but for that name.
* `Workflow.not_bringsElements_namesake`: a valid workflow of which no element gets to the activity.
-/

namespace Orchestration

variable {payload element : Json} {m : MapState} {paths : List String} {shared : Entries Json}

/-! ## Common parameters -/

theorem get?_insertAll_of_not_shared (h : sharedParams payload paths = .ok shared) {name : String}
    (hName : name ∉ paths) (es : Entries Json) :
    (es.insertAll shared).get? name = es.get? name := by
  induction paths generalizing shared es with
  | nil =>
    cases h
    rfl
  | cons p rest ih =>
    obtain ⟨v, more, -, hRest, rfl⟩ := sharedParams_cons_eq_ok_iff.mp h
    rw [List.mem_cons, not_or] at hName
    rw [Entries.insertAll, ih hRest hName.2, Entries.get?_insert_of_ne hName.1]

/-- Whatever was there under a path of the parameters, and however often it is listed,
its value is there now. -/
theorem get?_insertAll_shared (h : sharedParams payload paths = .ok shared) {p : String}
    (hPath : p ∈ paths) (es : Entries Json) : ∃ v, Path.get payload p = .ok v ∧
      (es.insertAll shared).get? p = some v := by
  induction paths generalizing shared es with
  | nil => cases hPath
  | cons q rest ih =>
    obtain ⟨v, more, hGet, hRest, rfl⟩ := sharedParams_cons_eq_ok_iff.mp h
    by_cases hAgain : p ∈ rest
    · exact ih hRest hAgain (es.insert q v)
    · obtain rfl : p = q := (List.mem_cons.mp hPath).resolve_right hAgain
      refine ⟨v, hGet, ?_⟩
      rw [Entries.insertAll, get?_insertAll_of_not_shared hRest hAgain, Entries.get?_insert_self]

/-! ## Inputs -/

/-- The element is in the input: alone, or under its name if there are common parameters. -/
def MapState.BringsElement (m : MapState) (element input : Json) : Prop :=
  (m.paramPaths = [] → input = element) ∧
    (m.paramPaths ≠ [] → input.field? "array_element" = some element)

/-- The input is an object with the value at each path of a common parameter under that
path, if there are any. -/
def MapState.BringsParams (m : MapState) (payload input : Json) : Prop :=
  m.paramPaths ≠ [] → ∃ fields, input = .obj fields ∧
    ∀ p ∈ m.paramPaths, ∃ v, Path.get payload p = .ok v ∧ Entries.get? p fields = some v

theorem MapState.bringsParams_elementInput (h : sharedParams payload m.paramPaths = .ok shared)
    (element : Json) :
    m.BringsParams payload (elementInput shared element) :=
  fun _ => ⟨_, rfl, fun _ hPath => get?_insertAll_shared h hPath _⟩

/-- The element is lost where its name is a path of the parameters, unless the path
leads to the same value. -/
theorem MapState.bringsElement_elementInput_iff (hSome : m.paramPaths ≠ [])
    (h : sharedParams payload m.paramPaths = .ok shared) :
    m.BringsElement element (elementInput shared element) ↔
      ("array_element" ∈ m.paramPaths → Path.get payload "array_element" = .ok element) := by
  simp only [MapState.BringsElement, hSome, false_implies, true_and, ne_eq, not_false_eq_true,
    true_implies, elementInput, Json.field?]
  by_cases hName : "array_element" ∈ m.paramPaths
  · obtain ⟨v, hGet, hField⟩ := get?_insertAll_shared h hName [("array_element", element)]
    simp [hName, hGet, hField]
  · rw [get?_insertAll_of_not_shared h hName]
    simp [hName, Entries.get?]

/-- A map has one input for each element, in their order. Each has in it the values of all common
parameters. It has the element in it if no common parameter has the name under which the element
stands, or if the value of that parameter is the element, and only then. -/
theorem MapState.bringsElement_iff {inputs : List Json} (h : m.inputs payload = .ok inputs) :
    ∃ elements, Path.get payload m.array = .ok (.arr elements) ∧
      List.Forall₂ (fun element input => m.BringsParams payload input ∧
        (m.BringsElement element input ↔
          ("array_element" ∈ m.paramPaths → Path.get payload "array_element" = .ok element)))
            elements inputs := by
  obtain ⟨elements, hGet, hEach⟩ := MapState.inputs_eq_ok_iff.mp h
  refine ⟨elements, hGet, ?_⟩
  rcases hEach with ⟨hNone, rfl⟩ | ⟨hSome, shared, hShared, rfl⟩
  · refine List.forall₂_same.mpr fun element _ => ⟨fun hSome => absurd hNone hSome, ?_⟩
    simp [MapState.BringsElement, hNone]
  · rw [List.forall₂_map_right_iff]
    exact List.forall₂_same.mpr fun element _ =>
      ⟨MapState.bringsParams_elementInput hShared element,
        MapState.bringsElement_elementInput_iff hSome hShared⟩

/-- Lists a path of two segments, nothing, and the name of the element. -/
def withNamesake : MapState := ⟨.activity "f", "xs", some " a.b ,, array_element", none, none⟩

/-- The parameter with the element's name is the second element, so that only
the first one is lost. -/
theorem MapState.bringsElement_iff_oneOfTwo :
    let payload : Json :=
      .obj [("xs", .arr [.int 1, .int 2]), ("a", .obj [("b", .bool true)]),
        ("array_element", .int 2)]
    let input : Json := .obj [("array_element", .int 2), ("a.b", .bool true)]
    withNamesake.inputs payload = .ok [input, input] ∧ withNamesake.BringsParams payload input ∧
      ¬ withNamesake.BringsElement (.int 1) input ∧ withNamesake.BringsElement (.int 2) input := by
  intro payload input
  have hInputs : withNamesake.inputs payload = .ok [input, input] := rfl
  have hPaths : "array_element" ∈ withNamesake.paramPaths := by decide
  obtain ⟨elements, hGet, hEach⟩ := MapState.bringsElement_iff hInputs
  obtain rfl : [.int 1, .int 2] = elements := Json.arr.inj (Except.ok.inj hGet)
  obtain ⟨hFirst, hRest⟩ := List.forall₂_cons.mp hEach
  obtain ⟨hSecond, -⟩ := List.forall₂_cons.mp hRest
  refine ⟨hInputs, hFirst.1, fun hBrings => ?_, hSecond.2.mpr fun _ => rfl⟩
  have hSame : Path.get payload "array_element" = .ok (.int 1) := hFirst.2.mp hBrings hPaths
  cases hSame

/-! ## Elements that do not arrive -/

/-- Each map of the workflow, as a state or at the root of a branch, brings every element
along, with the parameters. -/
def Workflow.BringsElements (w : Workflow) : Prop :=
  ∀ level, w.HasLevel level → ∀ name m, level.state? name = some (.map m) →
    ∀ payload inputs, m.inputs payload = .ok inputs → ∃ elements,
      Path.get payload m.array = .ok (.arr elements) ∧
      List.Forall₂ (fun element input => m.BringsElement element input ∧
        m.BringsParams payload input) elements inputs

/-- A map that lists the name of its elements as a common parameter. -/
def namesake : Workflow :=
  ⟨"m", [("m", .map ⟨.activity "f", "xs", some "array_element", none, none⟩)]⟩

/-- Both elements have an input with the value of the parameter in it, and
neither has its element. -/
theorem Workflow.not_bringsElements_namesake :
    namesake.validate = .ok () ∧ ¬ namesake.BringsElements := by
  refine ⟨rfl, fun hBrings => ?_⟩
  obtain ⟨elements, hGet, hEach⟩ := hBrings namesake (.self _) "m" _ rfl
    (.obj [("xs", .arr [.int 1, .int 2]), ("array_element", .int 9)]) _ rfl
  obtain rfl : [.int 1, .int 2] = elements := Json.arr.inj (Except.ok.inj hGet)
  obtain ⟨⟨⟨-, hElement⟩, -⟩, -⟩ := List.forall₂_cons.mp hEach
  have hSame : some (Json.int 9) = some (.int 1) := hElement (by decide)
  cases hSame

end Orchestration
