import Orchestration.Proofs.StateMachine.ItemInputs
import Orchestration.Proofs.StepProgram.ElementPayloads

/-!
# The same inputs for elements everywhere

A run makes the inputs of a map from the payload. In a document texts say how they are to be made:
for the iterations of a state machine in the parameters of a state, for the rounds of a step
program in what its loop sends.

* `MapState.GivesItems`, `MapState.SendsPayloads`: all that a map can be
  encoded as makes these inputs.
* `MapState.inputs_agree`: whenever a run can make the inputs of a map, its
  documents make just these.
-/

namespace Orchestration

open StepProgram

/-- Read with the payload as its data, the state that the map is encoded as gives these
inputs to its iterations. -/
structure MapState.GivesItems (m : MapState) (payload : Json) (inputs : List Json) : Prop where
  /-- The map is a state. -/
  state : ∀ resolver name documents, StateMachine.encodeState resolver name (.map m) =
    .ok documents →
    ∃ state, documents = [(name, state)] ∧ StateMachine.itemInputs payload state = some inputs
  /-- The map is the root of a branch. -/
  branch : ∀ resolver name b machine, b.workflow.rootState? = some (.map m) →
    StateMachine.branchMachine resolver name b = .ok machine →
      ∃ states state, machine.toJson.field? "States" = some states ∧
        states.field? b.workflow.root = some state ∧
        StateMachine.itemInputs payload state = some inputs

/-- With the payload in the variable for it, the steps that the map is encoded
as send these inputs. -/
structure MapState.SendsPayloads (m : MapState) (payload : Json) (inputs : List Json) : Prop where
  /-- The map is a state. -/
  state : ∀ sc vars, Stands sc → Entries.get? sc.payloadVar vars = some payload →
    ∀ name lifted documents, StepProgram.encodeState sc name (.map m) = ⟨lifted, .ok documents⟩ →
      sentPayloads vars documents = some inputs
  /-- The map is the root of a branch. -/
  branch : ∀ sc vars, Stands sc → Entries.get? sc.payloadVar vars = some payload →
    ∀ name b lifted steps array, b.workflow.rootState? = some (.map m) →
      branchSteps sc name b = ⟨lifted, .ok (steps, array)⟩ →
      sentPayloads vars steps.fragments = some inputs

/-- If a run can make the inputs of a map, whatever its common parameters are called and however
often one is listed, both encodings have the same inputs for its elements, in the same order, and
with their fields in the same order. -/
theorem MapState.inputs_agree {m : MapState} {payload : Json} {inputs : List Json}
    (h : m.inputs payload = .ok inputs) :
    m.GivesItems payload inputs ∧ m.SendsPayloads payload inputs where
  left :=
    { state := fun _ _ _ hDocuments => m.itemInputs_encodeState h hDocuments
      branch := fun _ _ _ _ hRoot hMachine => m.itemInputs_branchMachine h hRoot hMachine }
  right :=
    { state := fun _ _ hStands hPayload _ _ _ hDocuments =>
      m.sentPayloads_encodeState h hStands hPayload hDocuments
      branch := fun _ _ hStands hPayload _ _ _ _ _ hRoot hSteps =>
        m.sentPayloads_branchSteps h hStands hPayload hRoot hSteps }

/-- Lists a path of two segments twice, nothing between two commas, and the name of the element. -/
def crowded : MapState := ⟨.activity "f", "xs", some " a.b ,, array_element ,a.b", none, some "t"⟩

/-- The map goes on to a task in its branch, so that it is lifted there; as a state it is not. -/
def crowdedBranch : Branch := ⟨some "b", ⟨"m", [("m", .map crowded), ("t", .task ⟨"f", none⟩)]⟩⟩

theorem MapState.inputs_agree_crowded :
    let resolver : Resolver := ⟨none, [("f", "/f")]⟩
    let payload : Json :=
      .obj [("xs", .arr [.int 1, .int 2]), ("a", .obj [("b", .bool true)]),
        ("array_element", .int 7)]
    let input : Json := .obj [("array_element", .int 7), ("a.b", .bool true)]
    let sc : Scope := (Scope.top resolver "flow").inBranch "p_b"
    crowded.inputs payload = .ok [input, input] ∧
      (∃ state, StateMachine.encodeState resolver "m" (.map crowded) = .ok [("m", state)] ∧
        StateMachine.itemInputs payload state = some [input, input]) ∧
      (∃ documents, StepProgram.encodeState (.top resolver "flow") "m" (.map crowded) =
        ⟨[], .ok documents⟩ ∧ sentPayloads [("payload", payload)] documents = some [input, input]) ∧
      ∃ body steps, branchSteps sc "p" crowdedBranch =
        ⟨[("flow_p_b_m", body)], .ok (steps, some "xs")⟩ ∧
        sentPayloads [("p_b_payload", payload)] steps.fragments = some [input, input] := by
  intro resolver payload input sc
  have hInputs : crowded.inputs payload = .ok [input, input] := rfl
  obtain ⟨hItems, hPayloads⟩ := MapState.inputs_agree hInputs
  have hSlot : slotOf (.top resolver "flow") "p" crowdedBranch = "p_b" := by decide
  have hStands := Stands.branch (.document resolver "flow") "p" crowdedBranch
  rw [hSlot] at hStands
  refine ⟨hInputs, ?_, ⟨_, rfl, ?_⟩, ⟨_, _, rfl, ?_⟩⟩
  · obtain ⟨state, hDocuments, hState⟩ := hItems.state resolver "m" _ rfl
    exact ⟨state, congrArg Except.ok hDocuments, hState⟩
  · exact hPayloads.state _ _ (.document resolver "flow") rfl "m" _ _ rfl
  · exact hPayloads.branch _ _ hStands rfl "p" crowdedBranch _ _ _ rfl rfl

end Orchestration
