import Orchestration.Proofs.Workflow.Levels

/-!
# How deep runs can go

A run goes one level deeper for each element of a map whose body is a workflow, for a branch that
starts with a task and goes on after it, and for each element of a branch that starts with a map and
goes on after it. A branch of one step stays on its level.

* `State.Nests` lists the workflows that a state runs one level deeper.
* `Workflow.nesting` counts how many of these stand inside one another, by
  recursion on the definition.
* `State.Nests.nesting_lt`: the count goes down on each level, also for the workflows that branches
  derive for their elements, which are not part of the definition.
-/

namespace Orchestration

/-- The state runs this workflow one level deeper. -/
inductive State.Nests : State → Workflow → Prop
  | body {m : MapState} {w : Workflow} (hBody : m.body = .workflow w) : (State.map m).Nests w
  | branch {p : ParallelState} {b : Branch} {t : TaskState} {next : String}
    (hBranch : b ∈ p.branches) (hRoot : b.workflow.rootState? = some (.task t))
      (hNext : t.next = some next) :
    (State.parallel p).Nests b.workflow
  | element {p : ParallelState} {b : Branch} {w : Workflow} (hBranch : b ∈ p.branches)
    (hElement : b.elementWorkflow = some w) : (State.parallel p).Nests w

theorem State.Nests.enters {s : State} {w : Workflow} (h : s.Nests w) : s.Enters w := by
  cases h with
  | body hBody => exact .body hBody
  | branch hBranch => exact .branch hBranch
  | element hBranch hElement => exact .element hBranch hElement

/-! ## The measure -/

/-- The branch starts with a task or a map and goes on after it. -/
def Branch.hasSteps (b : Branch) : Bool :=
  match b.workflow.rootState? with
  | some (.task t) => t.next.isSome
  | some (.map m) => m.next.isSome
  | _ => false

mutual

/-- How many maps with workflows as bodies, and branches of several steps,
stand inside one another. -/
def Workflow.nesting : Workflow → Nat
  | ⟨_, states⟩ => nestingOfStates states

/-- `State.nesting` of the deepest of the states. -/
def nestingOfStates : List (String × State) → Nat
  | [] => 0
  | (_, s) :: rest => max s.nesting (nestingOfStates rest)

/-- How many of them stand inside one another in a state. -/
def State.nesting : State → Nat
  | .map ⟨body, _, _, _, _⟩ => body.nesting
  | .parallel ⟨branches, _⟩ => nestingOfBranches branches
  | .task _ | .switch _ | .repeat _ | .loop _ => 0

def MapBody.nesting : MapBody → Nat
  | .activity _ => 0
  | .workflow w => w.nesting + 1

/-- `Branch.nesting` of the deepest of the branches. -/
def nestingOfBranches : List Branch → Nat
  | [] => 0
  | b :: rest => max b.nesting (nestingOfBranches rest)

def Branch.nesting : Branch → Nat
  | ⟨name, ⟨root, states⟩⟩ =>
    nestingOfStates states + (Branch.hasSteps ⟨name, ⟨root, states⟩⟩).toNat

end

theorem Workflow.nesting_eq (w : Workflow) : w.nesting = nestingOfStates w.states := by
  obtain ⟨root, states⟩ := w
  rfl

theorem Branch.nesting_eq (b : Branch) : b.nesting = b.workflow.nesting + b.hasSteps.toNat := by
  obtain ⟨name, root, states⟩ := b
  rfl

theorem nesting_le_of_mem_states {states : List (String × State)} {name : String} {s : State}
    (h : (name, s) ∈ states) : s.nesting ≤ nestingOfStates states := by
  induction states with
  | nil => cases h
  | cons entry rest ih =>
    rw [nestingOfStates]
    rcases List.mem_cons.mp h with rfl | hRest
    · exact Nat.le_max_left _ _
    · exact Nat.le_trans (ih hRest) (Nat.le_max_right _ _)

theorem Workflow.nesting_le_of_mem {w : Workflow} {name : String} {s : State}
    (h : (name, s) ∈ w.states) :
    s.nesting ≤ w.nesting := by
  rw [Workflow.nesting_eq]
  exact nesting_le_of_mem_states h

theorem nesting_le_of_mem_branches {branches : List Branch} {b : Branch} (h : b ∈ branches) :
    b.nesting ≤ nestingOfBranches branches := by
  induction branches with
  | nil => cases h
  | cons c rest ih =>
    rw [nestingOfBranches]
    rcases List.mem_cons.mp h with rfl | hRest
    · exact Nat.le_max_left _ _
    · exact Nat.le_trans (ih hRest) (Nat.le_max_right _ _)

/-- A task in the place of another state adds no nesting. -/
theorem nestingOfStates_insert_task (name : String) (t : TaskState)
    (states : List (String × State)) :
    nestingOfStates (Entries.insert name (.task t) states) ≤ nestingOfStates states := by
  induction states with
  | nil => simp [Entries.insert, nestingOfStates, State.nesting]
  | cons entry rest ih =>
    obtain ⟨k, s⟩ := entry
    rw [Entries.insert]
    split
    · rw [nestingOfStates, nestingOfStates, State.nesting]
      omega
    · rw [nestingOfStates, nestingOfStates]
      omega

/-- A branch that starts with a map and goes on after it nests the workflow of its elements. -/
theorem Branch.nesting_elementWorkflow_lt {b : Branch} {w : Workflow}
    (h : b.elementWorkflow = some w) :
    w.nesting < b.nesting := by
  obtain ⟨m, next, activity, hRoot, hNext, -, rfl⟩ := Branch.elementWorkflow_eq_some h
  have hSteps : b.hasSteps = true := by
    simp [Branch.hasSteps, hRoot, hNext]
  have hTask := nestingOfStates_insert_task b.workflow.root ⟨activity, some next⟩ b.workflow.states
  rw [Branch.nesting_eq, hSteps, Workflow.nesting_eq, Workflow.nesting_eq]
  exact Nat.lt_succ_of_le hTask

/-- A branch of several steps nests its own workflow. -/
theorem Branch.nesting_lt_of_next {b : Branch} {t : TaskState} {next : String}
    (hRoot : b.workflow.rootState? = some (.task t)) (hNext : t.next = some next) :
    b.workflow.nesting < b.nesting := by
  have hSteps : b.hasSteps = true := by
    simp [Branch.hasSteps, hRoot, hNext]
  rw [Branch.nesting_eq, hSteps]
  exact Nat.lt_succ_self _

/-- What a state runs one level deeper nests less than the state. -/
theorem State.Nests.nesting_lt {s : State} {w : Workflow} (h : s.Nests w) :
    w.nesting < s.nesting := by
  cases h with
  | @body m w hBody =>
    obtain ⟨body, array, commonParams, maxConcurrency, next⟩ := m
    cases hBody
    exact Nat.lt_succ_self _
  | @branch p b t next hBranch hRoot hNext =>
    obtain ⟨branches, after⟩ := p
    exact Nat.lt_of_lt_of_le (Branch.nesting_lt_of_next hRoot hNext)
      (nesting_le_of_mem_branches hBranch)
  | @element p b w hBranch hElement =>
    obtain ⟨branches, after⟩ := p
    exact Nat.lt_of_lt_of_le (Branch.nesting_elementWorkflow_lt hElement)
      (nesting_le_of_mem_branches hBranch)

end Orchestration
