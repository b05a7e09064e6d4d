import Orchestration.Proofs.StepProgram.Encoding
import Orchestration.Proofs.StepProgram.Execution
import Orchestration.Proofs.StepProgram.Lifting
import Orchestration.Proofs.Workflow.Levels

/-!
# The lists of steps in documents

A document has one list of steps for itself, and more inside: those of loops, of branches and of
conditions. `StepProgram.lists` enumerates them all, so that a property of every list, or of every
step (`Everywhere`), can be proved block by block. `Json.stepLists` finds lists in the JSON value of
a document, and `forall_stepLists_mainDocument` says that they are those of its program.

`Workflow.programs_of_documents` finds the step program behind each document that a generator makes
of a workflow and of the bodies lifted from it. These are bodies that the workflow reaches, so they
are valid if it is (`Workflow.reaches_of_mem_liftedMaps`).
-/

namespace Orchestration

mutual

/-- The lists of steps inside a step, at every depth. -/
@[simp] def Step.lists : Step → List (List (String × Step))
  | .forEach _ _ steps | .forPositions _ _ steps | .parallelFor _ _ _ _ _ steps | .when _ steps =>
    steps :: innerLists steps
  | .parallel _ branches => branchesLists branches
  | .assign _ _ | .post _ _ _ | .runMap _ _ _ | .switch _ _ | .goto _ | .ret _ => []

/-- `Step.lists` of named steps. -/
@[simp] def innerLists : List (String × Step) → List (List (String × Step))
  | [] => []
  | (_, s) :: rest => s.lists ++ innerLists rest

/-- The lists of steps of branches, and the lists inside these. -/
@[simp] def branchesLists : List (String × List (String × Step)) → List (List (String × Step))
  | [] => []
  | (_, steps) :: rest => steps :: innerLists steps ++ branchesLists rest

end

theorem innerLists_append (p q : StepProgram) :
    innerLists (p ++ q) = innerLists p ++ innerLists q := by
  induction p with
  | nil => rfl
  | cons s p ih => rw [List.cons_append, innerLists, innerLists, ih, List.append_assoc]

theorem innerLists_flatten (blocks : List StepProgram) :
    innerLists (List.flatten blocks) = blocks.flatMap innerLists := by
  induction blocks with
  | nil => rfl
  | cons block rest ih => rw [List.flatten_cons, innerLists_append, ih, List.flatMap_cons]

namespace StepProgram

/-- The list of steps itself, and those inside it at every depth. -/
def lists (p : StepProgram) : List StepProgram := p :: innerLists p

/-- All steps of a program satisfy this, at every depth. -/
def Everywhere (P : Step → Prop) (p : StepProgram) : Prop := ∀ list ∈ p.lists, ∀ s ∈ list, P s.2

variable {P : Step → Prop}

theorem everywhere_nil : Everywhere P [] := by
  simp [Everywhere, lists]

/-- The steps of the list itself, and those of the lists inside. -/
theorem everywhere_iff {p : StepProgram} :
    Everywhere P p ↔ (∀ s ∈ p, P s.2) ∧ ∀ list ∈ innerLists p, ∀ s ∈ list, P s.2 :=
  List.forall_mem_cons

theorem everywhere_append {p q : StepProgram} :
    Everywhere P (p ++ q) ↔ Everywhere P p ∧ Everywhere P q := by
  simp only [everywhere_iff, innerLists_append, List.forall_mem_append]
  tauto

/-- The first step, the steps inside it, and the other ones. -/
theorem everywhere_cons {name : String} {s : Step} {p : StepProgram} :
    Everywhere P ((name, s) :: p) ↔ P s ∧ (∀ list ∈ s.lists, ∀ t ∈ list, P t.2) ∧
      Everywhere P p := by
  simp only [everywhere_iff, innerLists, List.forall_mem_append, List.forall_mem_cons]
  tauto

/-- The branches of a fork. -/
theorem forall_mem_branchesLists {Q : StepProgram → Prop} {branches : List (String × StepProgram)} :
    (∀ list ∈ branchesLists branches, Q list) ↔ ∀ b ∈ branches, ∀ list ∈ b.2.lists, Q list := by
  induction branches with
  | nil => simp
  | cons b rest ih =>
    rw [branchesLists, List.forall_mem_cons, ← ih, List.forall_mem_append]
    rfl

end StepProgram

/-! ## The lists in JSON values -/

namespace Json

mutual

/-- The lists under `steps` in a value, at every depth. -/
@[simp] def stepLists : Json → List (List Json)
  | .null | .bool _ | .int _ | .float _ | .str _ => []
  | .arr items => itemStepLists items
  | .obj fields => fieldStepLists fields

/-- `stepLists` of items. -/
@[simp] def itemStepLists : List Json → List (List Json)
  | [] => []
  | v :: rest => v.stepLists ++ itemStepLists rest

/-- `stepLists` of the values of fields. -/
@[simp] def fieldStepLists : List (String × Json) → List (List Json)
  | [] => []
  | (k, v) :: rest =>
    (if k = "steps" then v.items?.toList else []) ++ v.stepLists ++ fieldStepLists rest

end

/-- The lists that are not empty. -/
def filled (lists : List (List Json)) : List (List Json) := lists.filter fun l => !l.isEmpty

@[simp] theorem filled_nil : filled [] = [] := rfl

@[simp] theorem filled_append (a b : List (List Json)) : filled (a ++ b) = filled a ++ filled b :=
  List.filter_append ..

theorem filled_cons_congr (l : List Json) {lists lists' : List (List Json)}
    (h : filled lists = filled lists') :
    filled (l :: lists) = filled (l :: lists') := by
  rw [← List.singleton_append, filled_append, h, ← filled_append, List.singleton_append]

/-- A value under a name is a list of steps only if the name is `steps`. -/
theorem filled_stepLists_single {name : String} {v : Json} (hOwn : filled v.items?.toList = []) :
    filled (single name v).stepLists = filled v.stepLists := by
  rw [single, stepLists, fieldStepLists, fieldStepLists, List.append_nil, filled_append]
  split <;> simp [hOwn]

theorem filled_itemStepLists {items : List Json} (h : ∀ v ∈ items, filled v.stepLists = []) :
    filled (itemStepLists items) = [] := by
  induction items with
  | nil => rfl
  | cons v rest ih =>
    obtain ⟨hFirst, hRest⟩ := List.forall_mem_cons.mp h
    rw [itemStepLists, filled_append, hFirst, ih hRest]
    rfl

end Json

section JsonLists

open Json (filled filled_append filled_cons_congr filled_stepLists_single)

theorem Template.filled_items (t : Template) : filled t.toJson.items?.toList = [] := by
  cases t <;> rfl

mutual

theorem Template.filled_stepLists (t : Template) : filled t.toJson.stepLists = [] := by
  cases t with
  | object fields => exact Template.filled_fieldStepLists fields
  | _ => rfl

theorem Template.filled_fieldStepLists (fields : List (String × Template)) :
    filled (Json.fieldStepLists (Template.fieldsToJson fields)) = [] := by
  cases fields with
  | nil => rfl
  | cons f rest =>
    obtain ⟨name, t⟩ := f
    have hField : filled (Json.single name t.toJson).stepLists = filled t.toJson.stepLists :=
      filled_stepLists_single t.filled_items
    rw [Json.single, Json.stepLists, Json.fieldStepLists, Json.fieldStepLists, List.append_nil,
      Template.filled_stepLists t] at hField
    rw [Template.fieldsToJson, Json.fieldStepLists, filled_append, hField,
      Template.filled_fieldStepLists rest]
    rfl

end

theorem filled_stepLists_writes (writes : List (Place × Template)) :
    filled (Json.itemStepLists (writes.map writeToJson)) = [] := by
  refine Json.filled_itemStepLists (List.forall_mem_map.mpr fun w _ => ?_)
  rw [writeToJson, filled_stepLists_single w.2.filled_items, w.2.filled_stepLists]

/-- The value of a step is an object. -/
theorem Step.items?_toJson (s : Step) : s.toJson.items? = none := by
  cases s <;> rfl

mutual

/-- The lists in the value of a step are those of the step, besides empty values. -/
theorem Step.filled_stepLists (s : Step) :
    filled s.toJson.stepLists = filled (s.lists.map stepsToJson) := by
  cases s with
  | assign writes next =>
    have hWrites := filled_stepLists_writes writes
    cases next <;> simpa [Step.toJson, gotoField, Json.items?] using hWrites
  | post url payload result =>
    have hPayload := payload.filled_stepLists
    simpa [Step.toJson, postBody, requestIdVar, Json.items?] using hPayload
  | runMap workflowId arguments result => simp [Step.toJson]
  | forEach value items steps =>
    have hSteps := filled_stepLists_stepsToJson steps
    simpa [Step.toJson, Json.single, Json.items?] using filled_cons_congr (stepsToJson steps) hSteps
  | forPositions value list steps =>
    have hSteps := filled_stepLists_stepsToJson steps
    simpa [Step.toJson, Json.single, Json.items?] using filled_cons_congr (stepsToJson steps) hSteps
  | parallelFor shared limit value index items steps =>
    have hSteps := filled_stepLists_stepsToJson steps
    cases limit <;> simpa [Step.toJson, Json.single, Json.items?, limitField] using
      filled_cons_congr (stepsToJson steps) hSteps
  | parallel shared branches =>
    have hShared : filled (Json.itemStepLists (shared.map .str)) = [] :=
      Json.filled_itemStepLists (List.forall_mem_map.mpr fun _ _ => rfl)
    have hBranches := filled_stepLists_branchStepsToJson branches
    simp [Step.toJson, Json.single, hShared, hBranches]
  | «switch» conditions next =>
    have hConditions : filled (Json.itemStepLists (conditions.map Condition.toJson)) = [] :=
      Json.filled_itemStepLists (List.forall_mem_map.mpr fun _ _ => rfl)
    simpa [Step.toJson, Json.items?] using hConditions
  | «when» condition steps =>
    have hSteps := filled_stepLists_stepsToJson steps
    simpa [Step.toJson, Json.single, Json.items?] using filled_cons_congr (stepsToJson steps) hSteps
  | goto next => simp [Step.toJson, Json.single]
  | ret e => simp [Step.toJson, Json.single]

theorem filled_stepLists_stepsToJson (p : List (String × Step)) :
    filled (Json.itemStepLists (stepsToJson p)) = filled ((innerLists p).map stepsToJson) := by
  cases p with
  | nil => rfl
  | cons s rest =>
    obtain ⟨name, s⟩ := s
    have hItems : filled s.toJson.items?.toList = [] := by
      rw [s.items?_toJson]
      rfl
    rw [stepsToJson, Json.itemStepLists, innerLists, List.map_append, filled_append, filled_append,
      filled_stepLists_single hItems, Step.filled_stepLists s, filled_stepLists_stepsToJson rest]

theorem filled_stepLists_branchStepsToJson (branches : List (String × List (String × Step))) :
    filled (Json.itemStepLists (branchStepsToJson branches)) =
      filled ((branchesLists branches).map stepsToJson) := by
  cases branches with
  | nil => rfl
  | cons b rest =>
    obtain ⟨name, steps⟩ := b
    have hSteps := filled_stepLists_stepsToJson steps
    have hRest := filled_stepLists_branchStepsToJson rest
    rw [branchStepsToJson, Json.itemStepLists, filled_append,
      filled_stepLists_single (by rfl), hRest]
    rw [branchesLists, List.map_append, filled_append]
    congr 1
    simpa [Json.single, Json.items?] using filled_cons_congr (stepsToJson steps) hSteps

end

/-- The lists under `steps` in a document are those of its program, besides empty values. -/
theorem StepProgram.filled_stepLists_mainDocument (main : StepProgram) :
    filled (mainDocument main).stepLists = filled (main.lists.map stepsToJson) := by
  have hSteps := filled_stepLists_stepsToJson main
  simpa [mainDocument, Json.single, Json.items?, lists]
    using filled_cons_congr (stepsToJson main) hSteps

/-- What holds of an empty list and of the lists of a program holds of all lists in its document. -/
theorem StepProgram.forall_stepLists_mainDocument {Q : List Json → Prop} (hNil : Q [])
    {main : StepProgram} (h : ∀ list ∈ main.lists, Q (stepsToJson list)) :
    ∀ l ∈ (mainDocument main).stepLists, Q l := by
  intro l hl
  cases l with
  | nil => exact hNil
  | cons v rest =>
    have hFilled : v :: rest ∈ filled (mainDocument main).stepLists := List.mem_filter.mpr ⟨hl, rfl⟩
    rw [filled_stepLists_mainDocument] at hFilled
    obtain ⟨list, hList, hEq⟩ := List.mem_map.mp (List.mem_filter.mp hFilled).1
    rw [← hEq]
    exact h list hList

end JsonLists

namespace StepProgram

/-! ## Sites are levels -/

theorem enters_of_mem_mapSite {sc : Scope} {name : String} {m : MapState} {site : String × Workflow}
    (h : site ∈ mapSite sc name m) : (State.map m).Enters site.2 := by
  rw [mapSite] at h
  cases hBody : m.body with
  | activity activity => simp [hBody] at h
  | workflow body =>
    rw [hBody] at h
    obtain rfl := List.mem_singleton.mp h
    exact .body hBody

mutual

theorem reaches_of_mem_statesSites {sc : Scope} {states : List (String × State)}
    {site : String × Workflow} (h : site ∈ statesSites sc states) {w : Workflow}
    (hStates : ∀ e ∈ states, e ∈ w.states) :
    w.Reaches site.2 := by
  cases states with
  | nil => cases h
  | cons e rest =>
    obtain ⟨name, s⟩ := e
    rw [statesSites] at h
    obtain ⟨hState, hRest⟩ := List.forall_mem_cons.mp hStates
    rcases List.mem_append.mp h with hOwn | hMore
    · exact reaches_of_mem_stateSites hOwn hState
    · exact reaches_of_mem_statesSites hMore hRest
termination_by structural states

theorem reaches_of_mem_stateSites {sc : Scope} {name : String} {s : State}
    {site : String × Workflow} (h : site ∈ stateSites sc name s) {w : Workflow}
    (hState : (name, s) ∈ w.states) :
    w.Reaches site.2 := by
  cases s with
  | map m => exact .enter (.refl w) hState (enters_of_mem_mapSite h)
  | parallel p =>
    obtain ⟨branches, next⟩ := p
    refine reaches_of_mem_branchesSites h (fun b hb => ?_) (fun b hb element hElement => ?_)
    · exact .enter (.refl w) hState (.branch hb)
    · exact .enter (.refl w) hState (.element hb hElement)
  | _ => cases h
termination_by structural s

theorem reaches_of_mem_branchesSites {sc : Scope} {name : String} {branches : List Branch}
    {site : String × Workflow} (h : site ∈ branchesSites sc name branches) {w : Workflow}
    (hBranches : ∀ b ∈ branches, w.Reaches b.workflow)
    (hElements : ∀ b ∈ branches, ∀ element, b.elementWorkflow = some element → w.Reaches element) :
    w.Reaches site.2 := by
  cases branches with
  | nil => cases h
  | cons b rest =>
    rw [branchesSites] at h
    obtain ⟨hBranch, hRest⟩ := List.forall_mem_cons.mp hBranches
    obtain ⟨hElement, hMore⟩ := List.forall_mem_cons.mp hElements
    rcases List.mem_append.mp h with hOwn | hOther
    · exact reaches_of_mem_branchSites hOwn hBranch hElement
    · exact reaches_of_mem_branchesSites hOther hRest hMore
termination_by structural branches

theorem reaches_of_mem_branchSites {sc : Scope} {b : Branch} {site : String × Workflow}
    (h : site ∈ branchSites sc b) {w : Workflow} (hBranch : w.Reaches b.workflow)
    (hElement : ∀ element, b.elementWorkflow = some element → w.Reaches element) :
    w.Reaches site.2 := by
  obtain ⟨bname, root, states⟩ := b
  rw [branchSites] at h
  cases hRoot : Entries.get? root states with
  | none => simp [hRoot] at h
  | some s =>
    rw [hRoot] at h
    cases s with
    | task t => exact hBranch.trans (reaches_of_mem_statesSites h fun e he => he)
    | map m =>
      -- The body is the workflow of the elements, or that of the map, which is
      -- a state of the branch.
      dsimp only at h
      split at h
      · rename_i element hSome
        obtain rfl := List.mem_singleton.mp h
        exact hElement element hSome
      · exact .enter hBranch (Entries.mem_of_get? hRoot) (enters_of_mem_mapSite h)
    | _ => cases h
termination_by structural b

end

end StepProgram

namespace Workflow

open StepProgram

/-- The bodies that are lifted from a workflow are levels of it. -/
theorem reaches_of_mem_liftedMaps {resolver : Resolver} {id : String} {w : Workflow}
    {site : String × Workflow} (h : site ∈ w.liftedMaps resolver id) : w.Reaches site.2 := by
  rw [liftedMaps_eq, List.mem_flatMap] at h
  obtain ⟨top, hTop, hMem⟩ := h
  have hReaches : w.Reaches top.2 := reaches_of_mem_statesSites hTop fun e he => he
  rcases List.mem_cons.mp hMem with rfl | hBelow
  · exact hReaches
  · exact hReaches.trans (reaches_of_mem_liftedMaps hBelow)
termination_by w.levels
decreasing_by exact levels_lt_of_mem_mapSites hTop

/-- Each document is that of the workflow or of one of the bodies lifted from it. Its list of steps
has those of the states between the first and the last step. -/
theorem programs_of_documents {resolver : Resolver} {id : String} {w : Workflow} {doc : Json}
    {g : Generator} {docs : List (String × Json)}
    (hDoc : (Generator.fresh resolver id).document w = (.ok doc, g))
    (hDocs : g.drain.1 = .ok docs) : ∀ d ∈ (id, doc) :: docs,
      ∃ site ∈ (id, w) :: w.liftedMaps resolver id, d.1 = site.1 ∧
        ∃ lifted p, site.2.stepProgram (.top resolver site.1) = ⟨lifted, .ok p⟩ ∧
          d.2 = mainDocument (mainSteps (ident site.2.root) p) := by
  intro d hd
  rcases List.mem_cons.mp hd with rfl | hLifted
  · obtain ⟨lifted, p, hProgram, hJson⟩ := Workflow.document_eq_ok hDoc
    refine ⟨(id, w), List.mem_cons_self, rfl, lifted, p, hProgram, ?_⟩
    rw [← toJson_eq_mainDocument]
    exact hJson
  · obtain ⟨made, hMade, hSub, -⟩ := Generator.drain_documentsOf hDoc hDocs
    obtain ⟨site, hSite, hId, hDocument⟩ := exists_of_forall₂ hMade.flip hLifted
    obtain ⟨lifted, p, hProgram, hJson⟩ := Workflow.document_eq_ok
      (g := ((Generator.fresh resolver site.1).document site.2).2) (Prod.ext hDocument rfl)
    refine ⟨site, List.mem_cons_of_mem _ (hSub.subset hSite), hId, lifted, p, hProgram, ?_⟩
    rw [← toJson_eq_mainDocument]
    exact hJson

end Workflow

end Orchestration
