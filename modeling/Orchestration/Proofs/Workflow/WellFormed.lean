import Mathlib.Data.List.Duplicate
import Orchestration.Proofs.Workflow.Levels

/-!
# What validation decides

Validation is a recursive check that stops at the first fault. `Workflow.WellFormed` says
without any recursion what it looks for at one level, and `Workflow.HasLevel` lists the levels:
the workflow, the bodies and branches written in its states, and so on inwards, whether a run
ever comes there or not.

* `Workflow.validate_eq_ok_iff_wellFormed`: a workflow is accepted if its own level is well formed
  and what is written in its states is accepted.
* `Workflow.validate_error`: an error is true of its own level, or it comes from
  what is written in a state.
* `Workflow.Reordered`: the states of some levels in another order.
  `Workflow.Reordered.validate_iff`: that makes no difference to what is accepted.
* `Workflow.validate_decides`: all of this at all levels.
-/

namespace Orchestration

/-! ## Levels as written -/

/-- The workflow is written in the state, as the body of a map or in a branch. -/
inductive State.Embeds : State → Workflow → Prop
  | body {m : MapState} {w : Workflow} (hBody : m.body = .workflow w) : (State.map m).Embeds w
  | branch {p : ParallelState} {b : Branch} (hBranch : b ∈ p.branches) :
    (State.parallel p).Embeds b.workflow

/-- The workflow itself, the workflows written in its states, and so on inwards. -/
inductive Workflow.HasLevel : Workflow → Workflow → Prop
  | self (w : Workflow) : w.HasLevel w
  | inside {w v u : Workflow} {name : String} {s : State} (hState : (name, s) ∈ w.states)
    (hEmbeds : s.Embeds v) (hLevel : v.HasLevel u) : w.HasLevel u

/-- What is said of all levels is said of the workflow and of all levels of what is
written in its states. -/
theorem Workflow.forall_hasLevel_iff {w : Workflow} {P : Workflow → Prop} :
    (∀ v, w.HasLevel v → P v) ↔ P w ∧ ∀ e ∈ w.states, ∀ v, e.2.Embeds v →
      ∀ u, v.HasLevel u → P u := by
  constructor
  · intro h
    exact ⟨h w (.self w), fun e hState v hEmbeds u hLevel => h u (.inside hState hEmbeds hLevel)⟩
  · rintro ⟨hOwn, hEmbedded⟩ v hLevel
    cases hLevel with
    | self => exact hOwn
    | inside hState hEmbeds hInside => exact hEmbedded _ hState _ hEmbeds _ hInside

theorem State.Embeds.sizeOf_lt {s : State} {w : Workflow} (h : s.Embeds w) :
    sizeOf w < sizeOf s := by
  cases h with
  | @body m w hBody =>
    obtain ⟨body, array, commonParams, maxConcurrency, next⟩ := m
    cases hBody
    simp only [State.map.sizeOf_spec, MapState.mk.sizeOf_spec, MapBody.workflow.sizeOf_spec]
    omega
  | @branch p b hBranch =>
    obtain ⟨branches, next⟩ := p
    have hList := List.sizeOf_lt_of_mem hBranch
    obtain ⟨bname, w⟩ := b
    simp only [State.parallel.sizeOf_spec, ParallelState.mk.sizeOf_spec, Branch.mk.sizeOf_spec]
      at hList ⊢
    omega

/-- Induction on how deep workflows are written in one another. -/
theorem Workflow.embedding_induction {P : Workflow → Prop}
    (h : ∀ w, (∀ name s v, (name, s) ∈ w.states → s.Embeds v → P v) → P w)
    (w : Workflow) : P w := by
  refine h w fun name s v hState hEmbeds => ?_
  have hEntry := List.sizeOf_lt_of_mem hState
  have hLess := hEmbeds.sizeOf_lt
  have hSmaller : sizeOf v < sizeOf w := by
    obtain ⟨root, states⟩ := w
    simp only [Prod.mk.sizeOf_spec, Workflow.mk.sizeOf_spec] at hEntry ⊢
    omega
  exact Workflow.embedding_induction h v
termination_by sizeOf w

/-! ## One level -/

/-- A branch may start with this state: a task, or a map that calls one activity. -/
inductive State.StartsBranch : State → Prop
  | task (t : TaskState) : StartsBranch (.task t)
  | map {m : MapState} {activity : String} (hBody : m.body = .activity activity) :
    StartsBranch (.map m)

/-- What a level has to keep to by itself; of the branches of its states only
the roots are looked at. -/
structure Workflow.WellFormed (w : Workflow) : Prop where
  root : w.root ∈ Entries.keys w.states
  targets : ∀ name s, (name, s) ∈ w.states → ∀ t ∈ s.targets, t ∈ Entries.keys w.states
  counts : ∀ name r, (name, .repeat r) ∈ w.states → 1 ≤ r.count
  concurrency : ∀ name m, (name, .map m) ∈ w.states → ∀ n, m.maxConcurrency = some n → 1 ≤ n
  branches : ∀ name p, (name, .parallel p) ∈ w.states → p.branches ≠ []
  branchRoots : ∀ name p, (name, .parallel p) ∈ w.states →
    ∀ b ∈ p.branches, ∃ s, b.workflow.rootState? = some s ∧ s.StartsBranch
  branchKeys : ∀ name p, (name, .parallel p) ∈ w.states → (p.branches.map Branch.key).Nodup

/-- The state has the defect. -/
inductive State.Has : State → Defect → Prop
  | repeatCount {r : RepeatState} (hCount : r.count = 0) : (State.repeat r).Has .repeatCount
  | concurrency {m : MapState} (hZero : m.maxConcurrency = some 0) : (State.map m).Has .concurrency
  | noBranches {p : ParallelState} (hNone : p.branches = []) : (State.parallel p).Has .noBranches
  | branchRoot {p : ParallelState} {b : Branch} {s : State} (hBranch : b ∈ p.branches)
    (hRoot : b.workflow.rootState? = some s) (hStart : ¬ s.StartsBranch) :
    (State.parallel p).Has (.branchRoot b.workflow.root s.kind)
  | branchKey {p : ParallelState} {key : String}
    (hTwice : (p.branches.map Branch.key).Duplicate key) :
    (State.parallel p).Has (.branchKey key)

/-- What the error says is so at this level. -/
def ValidationError.TrueAt (w : Workflow) : ValidationError → Prop
  | .unknownRoot root => w.root = root ∧ root ∉ Entries.keys w.states
  | .unknownTarget state target =>
    ∃ s, (state, s) ∈ w.states ∧ target ∈ s.targets ∧ target ∉ Entries.keys w.states
  | .invalid state defect => ∃ s, (state, s) ∈ w.states ∧ s.Has defect

/-! ## What is accepted -/

theorem Branch.rootFault?_eq_none_iff {name : String} {b : Branch} :
    b.rootFault? name = none ↔ ∃ s, b.workflow.rootState? = some s ∧ s.StartsBranch := by
  unfold Branch.rootFault?
  constructor
  · intro h
    split at h
    · rename_i t hRoot
      exact ⟨_, hRoot, .task t⟩
    · rename_i m hRoot
      cases hBody : m.body with
      | activity activity => exact ⟨_, hRoot, .map hBody⟩
      | workflow body => simp [hBody, MapBody.isNested] at h
    · cases h
    · cases h
  · rintro ⟨s, hRoot, hStart⟩
    cases hStart with
    | task t => rw [hRoot]
    | map hBody => simp [hRoot, hBody, MapBody.isNested]

/-- A level is accepted if it is well formed and everything written in its states is accepted. -/
theorem Workflow.validate_eq_ok_iff_wellFormed {w : Workflow} :
    w.validate = .ok () ↔ w.WellFormed ∧
      ∀ name s v, (name, s) ∈ w.states → s.Embeds v → v.validate = .ok () := by
  rw [Workflow.validate_eq_ok_iff]
  constructor
  · rintro ⟨hRoot, hStates⟩
    refine ⟨⟨hRoot, fun name s hState => (hStates name s hState).1, ?_, ?_, ?_, ?_, ?_⟩, ?_⟩
    · intro name r hState
      exact Nat.pos_of_ne_zero (State.validate_repeat_eq_ok_iff.mp (hStates _ _ hState).2)
    · rintro name m hState n hGiven
      refine Nat.pos_of_ne_zero fun hZero => ?_
      exact (State.validate_map_eq_ok_iff.mp (hStates _ _ hState).2).1 (hZero ▸ hGiven)
    · intro name p hState
      exact (State.validate_parallel_eq_ok_iff.mp (hStates _ _ hState).2).1
    · intro name p hState b hBranch
      have hOk := (State.validate_parallel_eq_ok_iff.mp (hStates _ _ hState).2).2.1 b hBranch
      exact Branch.rootFault?_eq_none_iff.mp (Branch.validate_eq_ok_iff.mp hOk).2
    · intro name p hState
      exact (State.validate_parallel_eq_ok_iff.mp (hStates _ _ hState).2).2.2
    · intro name s v hState hEmbeds
      have hOk := (hStates name s hState).2
      cases hEmbeds with
      | body hBody => exact (State.Enters.body hBody).validate hOk
      | branch hBranch => exact (State.Enters.branch hBranch).validate hOk
  · rintro ⟨hWell, hInside⟩
    refine ⟨hWell.root, fun name s hState => ⟨hWell.targets name s hState, ?_⟩⟩
    have hEmbedded := fun v hEmbeds => hInside name s v hState hEmbeds
    cases s with
    | task t => rfl
    | switch sw => rfl
    | loop l => rfl
    | «repeat» r =>
      exact State.validate_repeat_eq_ok_iff.mpr (Nat.ne_of_gt (hWell.counts name r hState))
    | map m =>
      refine State.validate_map_eq_ok_iff.mpr ⟨fun hZero => ?_, ?_⟩
      · exact Nat.not_succ_le_zero 0 (hWell.concurrency name m hState 0 hZero)
      · cases hBody : m.body with
        | activity activity => rfl
        | workflow body => exact hEmbedded body (.body hBody)
    | parallel p =>
      refine State.validate_parallel_eq_ok_iff.mpr
        ⟨hWell.branches name p hState, fun b hBranch => ?_, hWell.branchKeys name p hState⟩
      refine Branch.validate_eq_ok_iff.mpr ⟨hEmbedded _ (.branch hBranch), ?_⟩
      exact Branch.rootFault?_eq_none_iff.mpr (hWell.branchRoots name p hState b hBranch)

/-! ## What is reported -/

theorem validateStates_error {declared : List String} {states : List (String × State)}
    {e : ValidationError} (h : validateStates declared states = .error e) :
    ∃ name s, (name, s) ∈ states ∧
      ((∃ t ∈ s.targets, t ∉ declared ∧ e = .unknownTarget name t) ∨
        s.validate name = .error e) := by
  induction states with
  | nil => cases h
  | cons entry rest ih =>
    obtain ⟨name, s⟩ := entry
    rw [validateStates] at h
    cases hTarget : firstUndeclared declared s.targets with
    | some t =>
      rw [hTarget] at h
      cases h
      have hUndeclared := List.find?_some hTarget
      simp only [Bool.not_eq_true', List.contains_eq_mem, decide_eq_false_iff_not] at hUndeclared
      exact ⟨name, s, List.mem_cons_self,
        .inl ⟨t, List.mem_of_find?_eq_some hTarget, hUndeclared, rfl⟩⟩
    | none =>
      rw [hTarget] at h
      rcases bind_eq_error_iff.mp h with hState | ⟨-, -, hRest⟩
      · exact ⟨name, s, List.mem_cons_self, .inr hState⟩
      · obtain ⟨k, s', hMem, hFault⟩ := ih hRest
        exact ⟨k, s', List.mem_cons_of_mem _ hMem, hFault⟩

/-- The fault that is found at the root of a valid workflow is that no branch may
start with its state. -/
theorem Branch.rootFault?_eq_some {name : String} {b : Branch} {e : ValidationError}
    (hValid : b.workflow.validate = .ok ()) (h : b.rootFault? name = some e) :
    ∃ s, b.workflow.rootState? = some s ∧ ¬ s.StartsBranch ∧
      e = .invalid name (.branchRoot b.workflow.root s.kind) := by
  obtain ⟨s, hRoot⟩ := Workflow.exists_state (Workflow.validate_eq_ok_iff.mp hValid).1
  have hStart : ¬ s.StartsBranch := by
    intro hStart
    rw [Branch.rootFault?_eq_none_iff.mpr ⟨s, hRoot, hStart⟩] at h
    cases h
  refine ⟨s, hRoot, hStart, ?_⟩
  unfold Branch.rootFault? Workflow.rootState? at h
  rw [hRoot] at h
  cases s with
  | task t => cases h
  | map m =>
    simp only at h
    split at h <;> cases h
    rfl
  | _ => exact (Option.some.inj h).symm

theorem Branch.validate_error {name : String} {b : Branch} {e : ValidationError}
    (h : b.validate name = .error e) : b.workflow.validate = .error e ∨
      ∃ s, b.workflow.rootState? = some s ∧ ¬ s.StartsBranch ∧
        e = .invalid name (.branchRoot b.workflow.root s.kind) := by
  obtain ⟨bname, w⟩ := b
  rw [Branch.validate] at h
  rcases bind_eq_error_iff.mp h with hWorkflow | ⟨_, hWorkflow, hRoot⟩
  · exact .inl hWorkflow
  · split at hRoot
    · rename_i hFault
      cases hRoot
      exact .inr (Branch.rootFault?_eq_some hWorkflow hFault)
    · cases hRoot

theorem validateBranches_error {name : String} {keys : List String} {branches : List Branch}
    {e : ValidationError} (h : validateBranches name keys branches = .error e) :
    (∃ b ∈ branches, b.validate name = .error e) ∨
      ∃ key, e = .invalid name (.branchKey key) ∧
        (key ∈ branches.map Branch.key ∧ key ∈ keys ∨ (branches.map Branch.key).Duplicate key) := by
  induction branches generalizing keys with
  | nil => cases h
  | cons b rest ih =>
    rw [validateBranches] at h
    rcases bind_eq_error_iff.mp h with hBranch | ⟨-, -, hMore⟩
    · exact .inl ⟨b, List.mem_cons_self, hBranch⟩
    · split at hMore
      · rename_i hKey
        cases hMore
        exact .inr ⟨b.key, rfl, .inl ⟨List.mem_cons_self, List.contains_iff_mem.mp hKey⟩⟩
      · rcases ih hMore with ⟨c, hc, hError⟩ | ⟨key, rfl, hTwice⟩
        · exact .inl ⟨c, List.mem_cons_of_mem _ hc, hError⟩
        · refine .inr ⟨key, rfl, ?_⟩
          rcases hTwice with ⟨hIn, hKeys⟩ | hTwice
          · -- The key was given or it is that of the first branch.
            rcases List.mem_cons.mp hKeys with rfl | hKeys
            · exact .inr (List.Mem.duplicate_cons_self hIn)
            · exact .inl ⟨List.mem_cons_of_mem _ hIn, hKeys⟩
          · exact .inr (hTwice.duplicate_cons _)

theorem ParallelState.validate_error {name : String} {p : ParallelState} {e : ValidationError}
    (h : p.validate name = .error e) : (∃ b ∈ p.branches, b.validate name = .error e) ∨
      ∃ d, e = .invalid name d ∧ (State.parallel p).Has d := by
  obtain ⟨branches, next⟩ := p
  cases branches with
  | nil =>
    cases h
    exact .inr ⟨_, rfl, .noBranches rfl⟩
  | cons b rest =>
    rw [ParallelState.validate] at h
    rcases bind_eq_error_iff.mp h with hBranch | ⟨-, -, hMore⟩
    · exact .inl ⟨b, List.mem_cons_self, hBranch⟩
    · rcases validateBranches_error hMore with ⟨c, hc, hError⟩ | ⟨key, rfl, hTwice⟩
      · exact .inl ⟨c, List.mem_cons_of_mem _ hc, hError⟩
      · refine .inr ⟨_, rfl, .branchKey ?_⟩
        rcases hTwice with ⟨hIn, hKey⟩ | hTwice
        · rw [List.mem_singleton.mp hKey] at hIn ⊢
          exact List.Mem.duplicate_cons_self hIn
        · exact hTwice.duplicate_cons _

/-- The error that a state is refused with is a defect of the state or comes from
what is written in it. -/
theorem State.validate_error {name : String} {s : State} {e : ValidationError}
    (h : s.validate name = .error e) :
    (∃ d, e = .invalid name d ∧ s.Has d) ∨ ∃ v, s.Embeds v ∧ v.validate = .error e := by
  cases s with
  | task t => cases h
  | switch sw => cases h
  | loop l => cases h
  | «repeat» r =>
    rw [State.validate] at h
    split at h <;> cases h
    exact .inl ⟨_, rfl, .repeatCount ‹_›⟩
  | map m =>
    obtain ⟨body, array, commonParams, maxConcurrency, next⟩ := m
    rw [State.validate, MapState.validate] at h
    split at h
    · cases h
      exact .inl ⟨_, rfl, .concurrency ‹_›⟩
    · cases body with
      | activity activity => cases h
      | workflow v => exact .inr ⟨v, .body rfl, h⟩
  | parallel p =>
    rw [State.validate] at h
    rcases ParallelState.validate_error h with ⟨b, hBranch, hError⟩ | hDefect
    · rcases Branch.validate_error hError with hInside | ⟨root, hRoot, hStart, rfl⟩
      · exact .inr ⟨b.workflow, .branch hBranch, hInside⟩
      · exact .inl ⟨_, rfl, .branchRoot hBranch hRoot hStart⟩
    · exact .inl hDefect

/-- An error is true of its own level or comes from what is written in a state. -/
theorem Workflow.validate_error {w : Workflow} {e : ValidationError} (h : w.validate = .error e) :
    e.TrueAt w ∨ ∃ name s v, (name, s) ∈ w.states ∧ s.Embeds v ∧ v.validate = .error e := by
  obtain ⟨root, states⟩ := w
  rw [Workflow.validate] at h
  split at h
  · obtain ⟨name, s, hState, hFault⟩ := validateStates_error h
    rcases hFault with ⟨t, hTarget, hUndeclared, rfl⟩ | hError
    · exact .inl ⟨s, hState, hTarget, hUndeclared⟩
    · rcases State.validate_error hError with ⟨d, rfl, hDefect⟩ | ⟨v, hEmbeds, hInside⟩
      · exact .inl ⟨s, hState, hDefect⟩
      · exact .inr ⟨name, s, v, hState, hEmbeds, hInside⟩
  · rename_i hRoot
    cases h
    exact .inl ⟨rfl, fun hDeclared => hRoot (Entries.contains_iff.mpr hDeclared)⟩

/-! ## The order of declaration -/

/-- The states of one level, or of several, stand in another order. -/
inductive Workflow.Reordered : Workflow → Workflow → Prop
  | states {root : String} {states states' : List (String × State)} (hPerm : states.Perm states')
    (hDistinct : (Entries.keys states).Nodup) : Reordered ⟨root, states⟩ ⟨root, states'⟩
  | body {root name : String} {m : MapState} {w w' : Workflow}
    {before after : List (String × State)} (hBody : m.body = .workflow w) (h : Reordered w w') :
    Reordered ⟨root, before ++ (name, .map m) :: after⟩
      ⟨root, before ++ (name, .map { m with body := .workflow w' }) :: after⟩
  | branch {root name : String} {bname next : Option String} {w w' : Workflow}
    {before after : List (String × State)} {front back : List Branch} (h : Reordered w w') :
    Reordered ⟨root, before ++ (name, .parallel ⟨front ++ ⟨bname, w⟩ :: back, next⟩) :: after⟩
      ⟨root, before ++ (name, .parallel ⟨front ++ ⟨bname, w'⟩ :: back, next⟩) :: after⟩
  | trans {w v u : Workflow} (h : Reordered w v) (h' : Reordered v u) : Reordered w u

/-- The activity that a branch starts with when this state is its root. -/
def State.startActivity? : State → Option String
  | .task t => some t.activity
  | .map m => m.body.activity?
  | _ => none

def Workflow.startActivity? (w : Workflow) : Option String := w.rootState?.bind State.startActivity?

theorem Branch.key_eq (b : Branch) :
    b.key = b.name.getD (b.workflow.startActivity?.getD b.workflow.root) := by
  unfold Branch.key Workflow.startActivity?
  cases b.name with
  | some name => rfl
  | none =>
    cases hRoot : b.workflow.rootState? with
    | none => rfl
    | some s => cases s <;> rfl

theorem State.startsBranch_iff {s : State} : s.StartsBranch ↔ s.startActivity?.isSome := by
  constructor
  · rintro (t | ⟨hBody⟩)
    · rfl
    · simp [State.startActivity?, hBody, MapBody.activity?]
  · intro h
    cases s with
    | task t => exact .task t
    | map m =>
      cases hBody : m.body with
      | activity activity => exact .map hBody
      | workflow w => simp [State.startActivity?, hBody, MapBody.activity?] at h
    | _ => cases h

theorem Branch.rootFault?_eq_none_iff_isSome {name : String} {b : Branch} :
    b.rootFault? name = none ↔ b.workflow.startActivity?.isSome := by
  rw [Branch.rootFault?_eq_none_iff, Workflow.startActivity?]
  cases b.workflow.rootState? with
  | none => simp
  | some s => simp [State.startsBranch_iff]

/-- The root of a workflow and what a branch starts with do not depend on the order. -/
theorem Workflow.Reordered.start_eq {w w' : Workflow} (h : w.Reordered w') :
    w'.root = w.root ∧ w'.startActivity? = w.startActivity? := by
  induction h with
  | states hPerm hDistinct =>
    refine ⟨rfl, ?_⟩
    unfold Workflow.startActivity? Workflow.rootState? Workflow.state?
    rw [Entries.get?_of_perm hPerm hDistinct]
  | @body root name m w w' before after hBody h ih =>
    refine ⟨rfl, Entries.get?_bind_congr ?_ _ _ _ _⟩
    simp [State.startActivity?, hBody, MapBody.activity?]
  | @branch root name bname next w w' before after front back h ih =>
    refine ⟨rfl, Entries.get?_bind_congr ?_ _ _ _ _⟩
    rfl
  | trans h h' ih ih' => exact ⟨ih'.1.trans ih.1, ih'.2.trans ih.2⟩

/-- A state in the place of another that has the same targets and is accepted just as that one. -/
theorem Workflow.validate_replace_iff {root name : String} {s s' : State}
    (before after : List (String × State)) (hTargets : s'.targets = s.targets)
    (hState : s'.validate name = .ok () ↔ s.validate name = .ok ()) :
    (Workflow.mk root (before ++ (name, s') :: after)).validate = .ok () ↔
      (Workflow.mk root (before ++ (name, s) :: after)).validate = .ok () := by
  have hKeys : Entries.keys (before ++ (name, s') :: after) =
      Entries.keys (before ++ (name, s) :: after) := by
    simp [Entries.keys]
  simp only [Workflow.validate_eq_ok_iff, hKeys, List.mem_append, List.mem_cons, Prod.mk.injEq,
    or_imp, and_imp, forall_and, forall_eq_apply_imp_iff, forall_eq, hTargets, hState]

/-- What is accepted does not depend on the order of declaration. -/
theorem Workflow.Reordered.validate_iff {w w' : Workflow} (h : w.Reordered w') :
    w'.validate = .ok () ↔ w.validate = .ok () := by
  induction h with
  | @states root states states' hPerm hDistinct =>
    have hKeys : ∀ t, t ∈ Entries.keys states' ↔ t ∈ Entries.keys states := fun t =>
      (hPerm.map Prod.fst).mem_iff.symm
    simp only [Workflow.validate_eq_ok_iff, hKeys, hPerm.mem_iff]
  | @body root name m w w' before after hBody h ih =>
    refine Workflow.validate_replace_iff before after rfl ?_
    rw [State.validate_map_eq_ok_iff, State.validate_map_eq_ok_iff, hBody, MapBody.validate,
      MapBody.validate, ih]
  | @branch root name bname next w w' before after front back h ih =>
    have hKey : Branch.key ⟨bname, w'⟩ = Branch.key ⟨bname, w⟩ := by
      rw [Branch.key_eq, Branch.key_eq, h.start_eq.1, h.start_eq.2]
    have hBranch : Branch.validate name ⟨bname, w'⟩ = .ok () ↔
        Branch.validate name ⟨bname, w⟩ = .ok () := by
      rw [Branch.validate_eq_ok_iff, Branch.validate_eq_ok_iff,
        Branch.rootFault?_eq_none_iff_isSome, Branch.rootFault?_eq_none_iff_isSome,
        h.start_eq.2, ih]
    refine Workflow.validate_replace_iff before after rfl ?_
    simp [State.validate_parallel_eq_ok_iff, hKey, hBranch, or_imp, forall_and]
  | trans h h' ih ih' => exact ih'.trans ih

/-! ## All levels -/

/-- A workflow is accepted just if all its levels are well formed; an error is true of one of its
levels; and the order in which states are declared makes no difference to what is accepted. -/
theorem Workflow.validate_decides (w : Workflow) :
    (w.validate = .ok () ↔ ∀ v, w.HasLevel v → v.WellFormed) ∧
    (∀ e, w.validate = .error e → ∃ v, w.HasLevel v ∧ e.TrueAt v) ∧
    ∀ w', w.Reordered w' → (w'.validate = .ok () ↔ w.validate = .ok ()) := by
  refine ⟨⟨fun hValid v hLevel => ?_, ?_⟩, ?_, fun w' h => h.validate_iff⟩
  · induction hLevel with
    | self w => exact (Workflow.validate_eq_ok_iff_wellFormed.mp hValid).1
    | inside hState hEmbeds _ ih =>
      exact ih ((Workflow.validate_eq_ok_iff_wellFormed.mp hValid).2 _ _ _ hState hEmbeds)
  · induction w using Workflow.embedding_induction with
    | h w ih =>
      intro hLevels
      refine Workflow.validate_eq_ok_iff_wellFormed.mpr ⟨hLevels w (.self w), ?_⟩
      intro name s v hState hEmbeds
      exact ih name s v hState hEmbeds fun u hLevel => hLevels u (.inside hState hEmbeds hLevel)
  · induction w using Workflow.embedding_induction with
    | h w ih =>
      intro e hError
      rcases Workflow.validate_error hError with hTrue | ⟨name, s, v, hState, hEmbeds, hInside⟩
      · exact ⟨w, .self w, hTrue⟩
      · obtain ⟨u, hLevel, hTrue⟩ := ih name s v hState hEmbeds e hInside
        exact ⟨u, .inside hState hEmbeds hLevel, hTrue⟩

/-- Two states that no run comes to: the first is a map whose body goes on to a
state it does not declare. -/
def strayBody : Workflow :=
  ⟨"a", [("a", .task ⟨"f", none⟩),
    ("b", .map ⟨.workflow ⟨"c", [("c", .task ⟨"g", some "a"⟩)]⟩, "xs", none, some 1, some "d"⟩),
    ("d", .repeat ⟨"h", 2, none⟩)]⟩

/-- The body is found out although the state that it goes on to is declared outside of it. -/
theorem Workflow.validate_decides_strayBody :
    strayBody.validate = .error (.unknownTarget "c" "a") ∧
      (∃ v, strayBody.HasLevel v ∧ ∃ s, ("c", s) ∈ v.states ∧ "a" ∈ s.targets ∧
        "a" ∉ Entries.keys v.states) ∧
      (¬ ∀ v, strayBody.HasLevel v → v.WellFormed) ∧
      (Workflow.mk "a" strayBody.states.reverse).validate ≠ .ok () := by
  have hError : strayBody.validate = .error (.unknownTarget "c" "a") := by decide
  obtain ⟨hAccepts, hReports, hOrder⟩ := Workflow.validate_decides strayBody
  have hRefused : strayBody.validate ≠ .ok () := by simp [hError]
  refine ⟨hError, hReports _ hError, fun hLevels => hRefused (hAccepts.mpr hLevels), fun hOk => ?_⟩
  exact hRefused ((hOrder _ (.states (List.reverse_perm _).symm (by decide))).mp hOk)

end Orchestration
