import Orchestration.Proofs.Run.Transitions
import Orchestration.Proofs.Workflow.Nesting

/-!
# What states run side by side

The strands of a state are calls, and workflows that run one level deeper (`State.Part`).

* `MapState.part_process`: the strand for an element of a map.
* `ParallelState.part_of_branchPlans`: the strands of the branches of a parallel state.
-/

namespace Orchestration

variable {site : Site}

/-- A call, or a workflow one level deeper. -/
inductive State.Part (site : Site) (s : State) : Process → Prop
  | call (activity : String) (input : Json) : s.Part site (site.dispatch activity input)
  | enter {w : Workflow} (hNests : s.Nests w) (input : Json) : s.Part site (site.enter w input)

theorem MapState.part_process (m : MapState) (input : Json) :
    (State.map m).Part site (m.body.process site input) := by
  cases hBody : m.body with
  | activity name => exact .call name input
  | workflow w => exact .enter (.body hBody) input

theorem Branch.part_of_plan {p : ParallelState} {b : Branch} {payload : Json} {plan : BranchPlan}
    (hBranch : b ∈ p.branches) (h : b.plan site payload = .ok plan) :
    ∀ q ∈ plan.strands, (State.parallel p).Part site q := by
  rcases Branch.plan_eq_ok_iff.mp h with ⟨t, hRoot, rfl⟩ | ⟨m, name, inputs, -, -, -, rfl⟩
  · intro q hq
    rw [List.mem_singleton.mp hq, Branch.taskStrand]
    cases hNext : t.next with
    | none => exact .call _ _
    | some next => exact .enter (.branch hBranch hRoot hNext) payload
  · intro q hq
    obtain ⟨input, -, rfl⟩ := List.mem_map.mp hq
    rw [Branch.elementStrand]
    cases hElement : b.elementWorkflow with
    | none => exact .call name input
    | some w => exact .enter (.element hBranch hElement) input

theorem ParallelState.part_of_branchPlans {p : ParallelState} {payload : Json}
    {plans : List BranchPlan} (h : branchPlans site payload p.branches = .ok plans) :
    ∀ q ∈ plans.flatMap BranchPlan.strands, (State.parallel p).Part site q := by
  intro q hq
  obtain ⟨plan, hMem, hq⟩ := List.mem_flatMap.mp hq
  obtain ⟨b, hBranch, hPlan⟩ := exists_branch_of_branchPlans h hMem
  exact Branch.part_of_plan hBranch hPlan q hq

end Orchestration
