import Mathlib.Data.List.Chain
import Mathlib.Data.List.Perm.Subperm
import Orchestration.Proofs.Workflow.WellFormed

/-!
# Workflows without cycles

A path through a workflow in which no state can come back to itself has no state twice, so it is no
longer than there are states. The workflows that branches derive for their elements have no cycles
that their branches do not have.

* `Workflow.Acyclic.once`: paths without cycles.
* `Workflow.AcyclicThroughout.enters`: what is known of all levels as written is
  known of all that are run.
* `State.Enters.sizeOf_lt`: a workflow is smaller than the state that enters
  it, be it derived or not.
-/

namespace Orchestration

namespace Workflow

/-- The first state may go on to the second one. -/
def LeadsTo (w : Workflow) (name next : String) : Prop :=
  ∃ s, w.state? name = some s ∧ next ∈ s.targets

/-- No state may come back to itself. -/
def Acyclic (w : Workflow) : Prop := ∀ name, ¬ Relation.TransGen w.LeadsTo name name

/-- There are no cycles at any level. -/
def AcyclicThroughout (w : Workflow) : Prop := ∀ v, w.HasLevel v → v.Acyclic

/-- No state comes up twice, so there are no more of them than the workflow has. -/
def Once (w : Workflow) (names : List String) : Prop := names.Nodup ∧ names.length ≤ w.states.length

instance (w : Workflow) (names : List String) : Decidable (w.Once names) :=
  inferInstanceAs (Decidable (names.Nodup ∧ names.length ≤ w.states.length))

variable {w v : Workflow}

/-! ## Paths -/

theorem once_of_nodup {names : List String} (hNodup : names.Nodup)
    (hDeclared : names ⊆ Entries.keys w.states) :
    w.Once names := by
  have hLength := (hNodup.subperm hDeclared).length_le
  rw [Entries.keys, List.length_map] at hLength
  exact ⟨hNodup, hLength⟩

theorem once_reverse {names : List String} : w.Once names.reverse ↔ w.Once names := by
  rw [Once, Once, List.nodup_reverse, List.length_reverse]

/-- States that can be ranked such that each goes on to states of higher rank only. -/
theorem acyclic_of_rank (rank : String → Nat)
    (hRank : ∀ e ∈ w.states, ∀ t ∈ e.2.targets, rank e.1 < rank t) :
    w.Acyclic := by
  have hStep : ∀ name next, w.LeadsTo name next → rank name < rank next := by
    rintro name next ⟨s, hState, hTarget⟩
    exact hRank _ (mem_states hState) _ hTarget
  intro name hCycle
  have hRises : Relation.TransGen (· < ·) (rank name) (rank name) :=
    Relation.TransGen.lift rank hStep name name hCycle
  rw [Relation.transGen_eq_self] at hRises
  exact Nat.lt_irrefl _ hRises

/-- A path of declared states does not come back to any of them. -/
theorem Acyclic.once (h : w.Acyclic) {names : List String} (hPath : names.IsChain w.LeadsTo)
    (hDeclared : names ⊆ Entries.keys w.states) : w.Once names := by
  have hBehind : names.Pairwise (Relation.TransGen w.LeadsTo) :=
    List.isChain_iff_pairwise.mp (hPath.imp fun _ _ => .single)
  refine once_of_nodup (hBehind.imp fun {name next} hLeads hSame => ?_) hDeclared
  exact h name (hSame ▸ hLeads)

/-! ## Derived workflows -/

/-- The elements of a branch go on as the map does that their branch starts with. -/
theorem leadsTo_of_element {b : Branch} (hElement : b.elementWorkflow = some v) {name next : String}
    (h : v.LeadsTo name next) : b.workflow.LeadsTo name next := by
  obtain ⟨m, first, activity, hRoot, hNext, -, rfl⟩ := Branch.elementWorkflow_eq_some hElement
  obtain ⟨s, hState, hTarget⟩ := h
  by_cases hName : name = b.workflow.root
  · subst hName
    rw [state?, Entries.get?_insert_self] at hState
    cases hState
    refine ⟨.map m, hRoot, ?_⟩
    rw [State.targets, State.next?, hNext]
    · exact hTarget
    · rintro sw ⟨⟩
  · rw [state?, Entries.get?_insert_of_ne hName] at hState
    exact ⟨s, hState, hTarget⟩

theorem Acyclic.element {b : Branch} (h : b.workflow.Acyclic)
    (hElement : b.elementWorkflow = some v) :
    v.Acyclic := by
  intro name hCycle
  have hLeads : v.LeadsTo ≤ b.workflow.LeadsTo := fun _ _ => leadsTo_of_element hElement
  exact h name (Relation.TransGen.mono hLeads name name hCycle)

/-- A level of the workflow for the elements of a branch is that workflow, or it is
a level of the branch. -/
theorem hasLevel_element {b : Branch} (hElement : b.elementWorkflow = some v) {u : Workflow}
    (h : v.HasLevel u) :
    u = v ∨ b.workflow.HasLevel u := by
  obtain ⟨m, first, activity, -, -, -, rfl⟩ := Branch.elementWorkflow_eq_some hElement
  cases h with
  | self => exact .inl rfl
  | inside hState hEmbeds hLevel =>
    rcases Entries.mem_insert hState with ⟨⟨⟩⟩ | hOld
    · cases hEmbeds
    · exact .inr (.inside hOld hEmbeds hLevel)

theorem acyclicThroughout_iff :
    w.AcyclicThroughout ↔ w.Acyclic ∧ ∀ e ∈ w.states, ∀ v, e.2.Embeds v → v.AcyclicThroughout :=
  forall_hasLevel_iff

theorem AcyclicThroughout.enters (h : w.AcyclicThroughout) {name : String} {s : State}
    (hState : (name, s) ∈ w.states) (hEnters : s.Enters v) : v.AcyclicThroughout := by
  intro u hLevel
  cases hEnters with
  | body hBody => exact h u (.inside hState (.body hBody) hLevel)
  | branch hBranch => exact h u (.inside hState (.branch hBranch) hLevel)
  | @element p b _ hBranch hElement =>
    have hInside {u} (hLevel : b.workflow.HasLevel u) : u.Acyclic :=
      h u (.inside hState (.branch hBranch) hLevel)
    rcases hasLevel_element hElement hLevel with rfl | hWritten
    · exact (hInside (.self _)).element hElement
    · exact hInside hWritten

theorem AcyclicThroughout.reaches (h : w.AcyclicThroughout) (hReaches : w.Reaches v) :
    v.AcyclicThroughout := by
  induction hReaches with
  | refl => exact h
  | enter _ hState hEnters ih => exact ih.enters hState hEnters

end Workflow

/-! ## Sizes -/

theorem length_le_sizeOf {α : Type} [SizeOf α] (as : List α) : as.length ≤ sizeOf as := by
  induction as with
  | nil => exact Nat.zero_le _
  | cons a rest ih =>
    rw [List.length_cons, List.cons.sizeOf_spec]
    omega

theorem length_add_sizeOf_le_of_mem {α : Type} [SizeOf α] {a : α} {as : List α} (h : a ∈ as) :
    as.length + sizeOf a ≤ sizeOf as := by
  induction as with
  | nil => cases h
  | cons b rest ih =>
    rw [List.length_cons, List.cons.sizeOf_spec]
    rcases List.mem_cons.mp h with rfl | hRest
    · have := length_le_sizeOf rest
      omega
    · have := ih hRest
      omega

theorem Workflow.length_lt_sizeOf (w : Workflow) : w.states.length < sizeOf w := by
  obtain ⟨root, states⟩ := w
  have := length_le_sizeOf states
  simp only [Workflow.mk.sizeOf_spec]
  omega

/-- What there is beside a state is larger than the number of states. -/
theorem Workflow.length_add_sizeOf_lt {w : Workflow} {name : String} {s : State}
    (h : (name, s) ∈ w.states) :
    w.states.length + sizeOf s < sizeOf w := by
  have hEntry := length_add_sizeOf_le_of_mem h
  obtain ⟨root, states⟩ := w
  simp only [Prod.mk.sizeOf_spec, Workflow.mk.sizeOf_spec] at hEntry ⊢
  omega

theorem Entries.sizeOf_insert_le {α : Type} [SizeOf α] {name : String} {new old : α}
    {es : Entries α} (h : es.get? name = some old) (hLess : sizeOf new ≤ sizeOf old) :
    sizeOf (es.insert name new) ≤ sizeOf es := by
  induction es with
  | nil => cases h
  | cons e rest ih =>
    obtain ⟨k, value⟩ := e
    rw [get?] at h
    rw [insert]
    split at h
    · cases h
      rw [if_pos ‹_›, List.cons.sizeOf_spec, List.cons.sizeOf_spec, Prod.mk.sizeOf_spec,
        Prod.mk.sizeOf_spec]
      omega
    · rw [if_neg ‹_›, List.cons.sizeOf_spec, List.cons.sizeOf_spec]
      have := ih h
      omega

/-- A task is smaller than the map that it stands for. -/
theorem Branch.sizeOf_elementWorkflow_le {b : Branch} {w : Workflow}
    (h : b.elementWorkflow = some w) :
    sizeOf w ≤ sizeOf b.workflow := by
  obtain ⟨m, next, activity, hRoot, hNext, hBody, rfl⟩ := Branch.elementWorkflow_eq_some h
  have hTask : sizeOf (State.task ⟨activity, some next⟩) ≤ sizeOf (State.map m) := by
    obtain ⟨body, array, commonParams, maxConcurrency, after⟩ := m
    cases hNext
    cases hBody
    simp only [State.task.sizeOf_spec, TaskState.mk.sizeOf_spec, State.map.sizeOf_spec,
      MapState.mk.sizeOf_spec, MapBody.activity.sizeOf_spec]
    omega
  have hStates := Entries.sizeOf_insert_le hRoot hTask
  obtain ⟨name, root, states⟩ := b
  simp only [Workflow.mk.sizeOf_spec] at hStates ⊢
  omega

theorem State.Enters.sizeOf_lt {s : State} {w : Workflow} (h : s.Enters w) :
    sizeOf w < sizeOf s := by
  cases h with
  | body hBody => exact (State.Embeds.body hBody).sizeOf_lt
  | branch hBranch => exact (State.Embeds.branch hBranch).sizeOf_lt
  | element hBranch hElement =>
    exact Nat.lt_of_le_of_lt (Branch.sizeOf_elementWorkflow_le hElement)
      (State.Embeds.branch hBranch).sizeOf_lt

end Orchestration
