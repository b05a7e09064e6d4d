import Orchestration.Proofs.Basic
import Orchestration.Workflow.Validation

/-!
# Levels of valid workflows

Validation goes through the states of a workflow and into the workflows inside them. What it has
found of a state can be read off the lemmas `…_eq_ok_iff`, one for each of its functions.

A run enters more workflows than those that are written down: a branch that starts with a map and
goes on after it derives one for its elements. `Workflow.Reaches` lists all of them, and
`Workflow.Reaches.validate` says that each is valid.
-/

namespace Orchestration

/-! ## What validation has found -/

theorem firstUndeclared_eq_none_iff {declared targets : List String} :
    firstUndeclared declared targets = none ↔ ∀ t ∈ targets, t ∈ declared := by
  simp [firstUndeclared]

theorem validateStates_eq_ok_iff {declared : List String} {states : List (String × State)} :
    validateStates declared states = .ok () ↔ ∀ name s, (name, s) ∈ states →
      (∀ t ∈ s.targets, t ∈ declared) ∧ s.validate name = .ok () := by
  induction states with
  | nil => simp [validateStates]
  | cons entry rest ih =>
    obtain ⟨name, s⟩ := entry
    rw [validateStates]
    cases hTarget : firstUndeclared declared s.targets with
    | some target =>
      simp only [reduceCtorEq, false_iff]
      intro h
      have hNone := firstUndeclared_eq_none_iff.mpr (h name s List.mem_cons_self).1
      rw [hTarget] at hNone
      cases hNone
    | none =>
      have hHead := firstUndeclared_eq_none_iff.mp hTarget
      cases hState : s.validate name with
      | error e =>
        simp only [bind, Except.bind, reduceCtorEq, false_iff]
        intro h
        have hOk := (h name s List.mem_cons_self).2
        rw [hState] at hOk
        cases hOk
      | ok u =>
        simp only [bind, Except.bind, ih, List.mem_cons, Prod.mk.injEq]
        constructor
        · rintro h k s' (⟨rfl, rfl⟩ | hMem)
          · exact ⟨hHead, hState⟩
          · exact h k s' hMem
        · exact fun h k s' hMem => h k s' (.inr hMem)

theorem Workflow.validate_eq_ok_iff {w : Workflow} :
    w.validate = .ok () ↔ w.root ∈ Entries.keys w.states ∧ ∀ name s, (name, s) ∈ w.states →
      (∀ t ∈ s.targets, t ∈ Entries.keys w.states) ∧ s.validate name = .ok () := by
  obtain ⟨root, states⟩ := w
  rw [Workflow.validate, ← validateStates_eq_ok_iff, ← Entries.contains_iff]
  split
  · rename_i hRoot
    exact ⟨fun h => ⟨hRoot, h⟩, And.right⟩
  · rename_i hRoot
    exact ⟨fun h => (by cases h), fun h => absurd h.1 hRoot⟩

theorem State.validate_map_eq_ok_iff {name : String} {m : MapState} :
    (State.map m).validate name = .ok () ↔ m.maxConcurrency ≠ some 0 ∧
      m.body.validate = .ok () := by
  obtain ⟨body, array, commonParams, maxConcurrency, next⟩ := m
  rw [State.validate, MapState.validate]
  split <;> simp_all

theorem State.validate_repeat_eq_ok_iff {name : String} {r : RepeatState} :
    (State.repeat r).validate name = .ok () ↔ r.count ≠ 0 := by
  rw [State.validate]
  split <;> simp_all

theorem Branch.validate_eq_ok_iff {name : String} {b : Branch} :
    b.validate name = .ok () ↔ b.workflow.validate = .ok () ∧ b.rootFault? name = none := by
  obtain ⟨bname, w⟩ := b
  rw [Branch.validate]
  cases w.validate with
  | error e => simp [bind, Except.bind]
  | ok u =>
    simp only [bind, Except.bind]
    cases Branch.rootFault? name ⟨bname, w⟩ <;> simp

theorem validateBranches_eq_ok_iff {name : String} {keys : List String} {branches : List Branch} :
    validateBranches name keys branches = .ok () ↔ (∀ b ∈ branches, b.validate name = .ok ()) ∧
      (branches.map Branch.key).Nodup ∧ ∀ b ∈ branches, b.key ∉ keys := by
  induction branches generalizing keys with
  | nil => simp [validateBranches]
  | cons b rest ih =>
    rw [validateBranches]
    cases hBranch : b.validate name with
    | error e => simp [bind, Except.bind, hBranch]
    | ok u =>
      simp only [bind, Except.bind]
      split
      · rename_i hKey
        simp only [List.contains_iff_mem] at hKey
        simp [hKey]
      · rename_i hKey
        simp only [List.contains_iff_mem] at hKey
        rw [ih]
        simp only [List.mem_cons, List.map_cons, List.nodup_cons, List.mem_map, forall_eq_or_imp,
          hBranch, true_and, not_or, not_exists, not_and]
        constructor
        · rintro ⟨hRest, hNodup, hNew⟩
          exact ⟨hRest, ⟨fun c hc => (hNew c hc).1, hNodup⟩, hKey, fun c hc => (hNew c hc).2⟩
        · rintro ⟨hRest, ⟨hDistinct, hNodup⟩, -, hNew⟩
          exact ⟨hRest, hNodup, fun c hc => ⟨hDistinct c hc, hNew c hc⟩⟩

theorem State.validate_parallel_eq_ok_iff {name : String} {p : ParallelState} :
    (State.parallel p).validate name = .ok () ↔ p.branches ≠ [] ∧
      (∀ b ∈ p.branches, b.validate name = .ok ()) ∧ (p.branches.map Branch.key).Nodup := by
  obtain ⟨branches, next⟩ := p
  rw [State.validate]
  cases branches with
  | nil => simp [ParallelState.validate]
  | cons b rest =>
    rw [ParallelState.validate]
    cases hBranch : b.validate name with
    | error e => simp [bind, Except.bind, hBranch]
    | ok u =>
      simp only [bind, Except.bind, validateBranches_eq_ok_iff, List.mem_cons, List.not_mem_nil,
        or_false, List.map_cons, List.nodup_cons, List.mem_map, forall_eq_or_imp, hBranch, true_and,
        ne_eq, reduceCtorEq, not_false_eq_true, not_exists, not_and]
      constructor
      · rintro ⟨hRest, hNodup, hNew⟩
        exact ⟨hRest, hNew, hNodup⟩
      · rintro ⟨hRest, hNew, hNodup⟩
        exact ⟨hRest, hNodup, hNew⟩

/-! ## States of valid workflows -/

theorem Workflow.mem_states {w : Workflow} {name : String} {s : State}
    (h : w.state? name = some s) :
    (name, s) ∈ w.states :=
  Entries.mem_of_get? h

theorem Workflow.exists_state {w : Workflow} {name : String} (h : name ∈ Entries.keys w.states) :
    ∃ s, w.state? name = some s := by
  cases hState : w.state? name with
  | none => exact absurd h (Entries.get?_eq_none_iff.mp hState)
  | some s => exact ⟨s, rfl⟩

/-- A valid branch starts with a task or with a map that calls an activity. -/
theorem Branch.rootState?_of_validate {name : String} {b : Branch} (h : b.validate name = .ok ()) :
    (∃ t, b.workflow.rootState? = some (.task t)) ∨
      ∃ m activity, b.workflow.rootState? = some (.map m) ∧ m.body = .activity activity := by
  have hFault := (Branch.validate_eq_ok_iff.mp h).2
  unfold Branch.rootFault? at hFault
  split at hFault
  · rename_i t hRoot
    exact .inl ⟨t, hRoot⟩
  · rename_i m hRoot
    cases hBody : m.body with
    | activity activity => exact .inr ⟨m, activity, hRoot, hBody⟩
    | workflow body => simp [hBody, MapBody.isNested] at hFault
  · cases hFault
  · cases hFault

/-! ## Levels -/

/-- A state runs this workflow one level deeper, or would if its branch or
its elements came to it. -/
inductive State.Enters : State → Workflow → Prop
  | body {m : MapState} {w : Workflow} (hBody : m.body = .workflow w) : (State.map m).Enters w
  | branch {p : ParallelState} {b : Branch} (hBranch : b ∈ p.branches) :
    (State.parallel p).Enters b.workflow
  | element {p : ParallelState} {b : Branch} {w : Workflow} (hBranch : b ∈ p.branches)
    (hElement : b.elementWorkflow = some w) : (State.parallel p).Enters w

/-- The workflow itself, the workflows that its states enter, and so on inwards. -/
inductive Workflow.Reaches : Workflow → Workflow → Prop
  | refl (w : Workflow) : w.Reaches w
  | enter {w v u : Workflow} {name : String} {s : State} (hReaches : w.Reaches v)
    (hState : (name, s) ∈ v.states) (hEnters : s.Enters u) : w.Reaches u

theorem Workflow.Reaches.trans {w v u : Workflow} (h : w.Reaches v) (h' : v.Reaches u) :
    w.Reaches u := by
  induction h' with
  | refl => exact h
  | enter _ hState hEnters ih => exact .enter ih hState hEnters

theorem Branch.elementWorkflow_eq_some {b : Branch} {w : Workflow}
    (h : b.elementWorkflow = some w) :
    ∃ m next activity, b.workflow.rootState? = some (.map m) ∧ m.next = some next ∧
      m.body = .activity activity ∧ w = ⟨b.workflow.root,
        Entries.insert b.workflow.root (.task ⟨activity, some next⟩) b.workflow.states⟩ := by
  obtain ⟨t, hTask, rfl⟩ := Option.map_eq_some_iff.mp h
  unfold Branch.elementTask? at hTask
  split at hTask
  · rename_i m hRoot
    split at hTask
    · rename_i next activity hNext hBody
      cases hTask
      exact ⟨m, next, activity, hRoot, hNext, hBody, rfl⟩
    · cases hTask
  · cases hTask

/-- The workflow that a branch derives for its elements is valid: its new root goes on to
where the map went on to. -/
theorem Branch.validate_elementWorkflow {b : Branch} {w : Workflow}
    (hValid : b.workflow.validate = .ok ()) (h : b.elementWorkflow = some w) :
    w.validate = .ok () := by
  obtain ⟨m, next, activity, hRoot, hNext, -, rfl⟩ := Branch.elementWorkflow_eq_some h
  obtain ⟨hDeclared, hStates⟩ := Workflow.validate_eq_ok_iff.mp hValid
  have hKeys : Entries.keys (Entries.insert b.workflow.root (.task ⟨activity, some next⟩)
      b.workflow.states) = Entries.keys b.workflow.states := by
    rw [Entries.keys_insert, if_pos hDeclared]
  refine Workflow.validate_eq_ok_iff.mpr ⟨?_, ?_⟩
  · rw [hKeys]
    exact hDeclared
  · intro name s hMem
    rw [hKeys]
    rcases Entries.mem_insert hMem with hNew | hOld
    · cases hNew
      refine ⟨fun t ht => ?_, rfl⟩
      refine (hStates _ _ (Workflow.mem_states hRoot)).1 t ?_
      simpa [State.targets, State.next?, hNext] using ht
    · exact hStates name s hOld

theorem State.Enters.validate {name : String} {s : State} {w : Workflow} (h : s.Enters w)
    (hValid : s.validate name = .ok ()) : w.validate = .ok () := by
  cases h with
  | body hBody =>
    have hOk := (State.validate_map_eq_ok_iff.mp hValid).2
    rwa [hBody, MapBody.validate] at hOk
  | branch hBranch =>
    have hOk := (State.validate_parallel_eq_ok_iff.mp hValid).2.1 _ hBranch
    exact (Branch.validate_eq_ok_iff.mp hOk).1
  | element hBranch hElement =>
    have hOk := (State.validate_parallel_eq_ok_iff.mp hValid).2.1 _ hBranch
    exact Branch.validate_elementWorkflow (Branch.validate_eq_ok_iff.mp hOk).1 hElement

/-- All levels of a valid workflow are valid. -/
theorem Workflow.Reaches.validate {w v : Workflow} (h : w.Reaches v)
    (hValid : w.validate = .ok ()) :
    v.validate = .ok () := by
  induction h with
  | refl => exact hValid
  | enter _ hState hEnters ih =>
    exact hEnters.validate ((Workflow.validate_eq_ok_iff.mp ih).2 _ _ hState).2

end Orchestration
