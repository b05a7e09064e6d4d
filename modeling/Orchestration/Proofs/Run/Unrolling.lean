import Orchestration.Proofs.Run.Fuel
import Orchestration.Proofs.Workflow.Soundness
import Orchestration.Target.Fragment

/-!
# Repeats as chains of tasks

A repeat that stands in a workflow may be replaced by a chain of tasks, one for each call, of which
the first has the name of the repeat and the others have names of their own. If these names are new,
a run does the same with either: the same calls at the same times, the same end, and the same states
apart from the new ones.

* `Workflow.unrolled`: the workflow with its repeats replaced;
  `Workflow.unrolledNames` are the new names.
* `Workflow.Unrollable`: the workflow is valid, and the new names are new.
* `Workflow.Unrollable.goOn_chain`: the calls of a repeat, and the walk along its chain.
* `Unrollable.walk_shortOf_unrolled`, `Unrollable.unrolled_walk_shortOf`: the walks of both
  workflows, each of which falls short of the other when that is followed far enough.
* `Workflow.unrolled_runsAlike`: their runs.
-/

namespace Orchestration

/-! ## Unrolling -/

/-- The states that take the place of a state, by name: the tasks of a
repeat, or the state itself. -/
def State.unrolled (name : String) : State → List (String × State)
  | .repeat r => (r.unrolled name).map fun e => (e.1, .task e.2)
  | s => [(name, s)]

/-- The names of the tasks of a repeat after the first. -/
def State.unrolledNames (name : String) : State → List String
  | .repeat r => (List.range (r.count - 1)).map fun i => unrolledName name (i + 1)
  | _ => []

/-- What is found under the name of a state once it is unrolled. -/
def State.unrolledHead (name : String) : State → State
  | .repeat r => .task (r.unrolledTask name 0)
  | s => s

/-- The workflow with a chain of tasks for each repeat among its own states. -/
def Workflow.unrolled (w : Workflow) : Workflow :=
  ⟨w.root, w.states.flatMap fun e => e.2.unrolled e.1⟩

/-- The names that tasks of repeats have in `Workflow.unrolled` and that are
not names of repeats. -/
def Workflow.unrolledNames (w : Workflow) : List String :=
  w.states.flatMap fun e => e.2.unrolledNames e.1

/-- A valid workflow with repeats whose tasks can all have names of their own. -/
structure Workflow.Unrollable (w : Workflow) : Prop where
  valid : w.validate = .ok ()
  distinct : w.unrolledNames.Nodup
  fresh : ∀ name ∈ w.unrolledNames, name ∉ Entries.keys w.states

theorem RepeatState.mem_unrolled {r : RepeatState} {i : Nat} (h : i < r.count) (name : String) :
    (unrolledName name i, State.task (r.unrolledTask name i)) ∈ (State.repeat r).unrolled name :=
  List.mem_map_of_mem (f := fun e : String × TaskState => (e.1, State.task e.2))
    (List.mem_map_of_mem (f := fun i => (unrolledName name i, r.unrolledTask name i))
      (List.mem_range.mpr h))

theorem RepeatState.unrolledName_mem {r : RepeatState} {i : Nat} (h : i + 1 < r.count)
    (name : String) :
    unrolledName name (i + 1) ∈ (State.repeat r).unrolledNames name :=
  List.mem_map_of_mem (f := fun i => unrolledName name (i + 1)) (List.mem_range.mpr (by omega))

/-- A state that is unrolled has its name and the new ones, in that order. -/
theorem State.keys_unrolled {name : String} {s : State} (h : s.validate name = .ok ()) :
    Entries.keys (s.unrolled name) = name :: s.unrolledNames name := by
  cases s with
  | «repeat» r =>
    obtain ⟨n, hCount⟩ := Nat.exists_eq_succ_of_ne_zero (State.validate_repeat_eq_ok_iff.mp h)
    simp only [State.unrolled, State.unrolledNames, RepeatState.unrolled, Entries.keys,
      List.map_map, hCount, Nat.succ_eq_add_one, Nat.add_sub_cancel, List.range_succ_eq_map,
      List.map_cons]
    rfl
  | _ => rfl

theorem State.get?_unrolled {name : String} {s : State} (h : s.validate name = .ok ()) :
    Entries.get? name (s.unrolled name) = some (s.unrolledHead name) := by
  cases s with
  | «repeat» r =>
    obtain ⟨n, hCount⟩ := Nat.exists_eq_succ_of_ne_zero (State.validate_repeat_eq_ok_iff.mp h)
    simp only [State.unrolled, RepeatState.unrolled, hCount, Nat.succ_eq_add_one,
      List.range_succ_eq_map, List.map_cons]
    exact if_pos rfl
  | _ => exact if_pos rfl

/-- A state that is no repeat stays as it is. -/
theorem State.unrolled_eq {s : State} (hKind : ∀ r, s ≠ .repeat r) (name : String) :
    s.unrolled name = [(name, s)] := by
  cases s with
  | «repeat» r => exact absurd rfl (hKind r)
  | _ => rfl

theorem State.unrolledHead_eq {s : State} (hKind : ∀ r, s ≠ .repeat r) (name : String) :
    s.unrolledHead name = s := by
  cases s with
  | «repeat» r => exact absurd rfl (hKind r)
  | _ => rfl

section Lookup

variable {states : List (String × State)}

/-- Names that are not new are found where they were. -/
theorem get?_unrolled (hValid : ∀ name s, (name, s) ∈ states → s.validate name = .ok ())
    {name : String} (hNot : name ∉ states.flatMap fun e => e.2.unrolledNames e.1) :
    Entries.get? name (states.flatMap fun e => e.2.unrolled e.1) =
      (Entries.get? name states).map (State.unrolledHead name) := by
  induction states with
  | nil => rfl
  | cons e rest ih =>
    obtain ⟨k, s⟩ := e
    have hHead := hValid k s List.mem_cons_self
    rw [List.flatMap_cons, List.mem_append, not_or] at hNot
    rw [List.flatMap_cons, Entries.get?_append, Entries.get?]
    by_cases hName : k = name
    · subst hName
      rw [State.get?_unrolled hHead, if_pos rfl]
      rfl
    · have hNone : Entries.get? name (s.unrolled k) = none := by
        rw [Entries.get?_eq_none_iff, State.keys_unrolled hHead, List.mem_cons, not_or]
        exact ⟨fun h => hName h.symm, hNot.1⟩
      rw [hNone, if_neg hName]
      exact ih (fun name s h => hValid name s (List.mem_cons_of_mem _ h)) hNot.2

/-- Under its new names the later tasks of a repeat are found. -/
theorem get?_unrolledName (hValid : ∀ name s, (name, s) ∈ states → s.validate name = .ok ())
    (hDistinct : (states.flatMap fun e => e.2.unrolledNames e.1).Nodup)
    (hFresh : ∀ name ∈ states.flatMap fun e => e.2.unrolledNames e.1, name ∉ Entries.keys states)
    {name : String} {r : RepeatState}
    (hState : Entries.get? name states = some (.repeat r)) {i : Nat} (hi : i + 1 < r.count) :
    Entries.get? (unrolledName name (i + 1)) (states.flatMap fun e => e.2.unrolled e.1) =
      some (.task (r.unrolledTask name (i + 1))) := by
  induction states with
  | nil => cases hState
  | cons e rest ih =>
    obtain ⟨k, s⟩ := e
    have hHead := hValid k s List.mem_cons_self
    rw [List.flatMap_cons] at hDistinct hFresh
    obtain ⟨hOwn, hRest, hApart⟩ := List.nodup_append.mp hDistinct
    rw [List.flatMap_cons, Entries.get?_append]
    rw [Entries.get?] at hState
    by_cases hName : k = name
    · rw [if_pos hName] at hState
      cases hState
      subst hName
      have hNodup : (Entries.keys ((State.repeat r).unrolled k)).Nodup := by
        rw [State.keys_unrolled hHead, List.nodup_cons]
        exact ⟨fun h => hFresh k (List.mem_append_left _ h) List.mem_cons_self, hOwn⟩
      rw [Entries.get?_of_mem (r.mem_unrolled hi k) hNodup]
      rfl
    · rw [if_neg hName] at hState
      have hLater : unrolledName name (i + 1) ∈ rest.flatMap fun e => e.2.unrolledNames e.1 :=
        List.mem_flatMap.mpr ⟨_, Entries.mem_of_get? hState, r.unrolledName_mem hi name⟩
      have hNone : Entries.get? (unrolledName name (i + 1)) (s.unrolled k) = none := by
        rw [Entries.get?_eq_none_iff, State.keys_unrolled hHead, List.mem_cons, not_or]
        refine ⟨fun h => hFresh _ (List.mem_append_right _ hLater) ?_,
          fun h => hApart _ h _ hLater rfl⟩
        rw [h]
        exact List.mem_cons_self
      rw [hNone]
      refine ih (fun name s h => hValid name s (List.mem_cons_of_mem _ h)) hRest
        (fun n hn hKey => ?_) hState
      exact hFresh n (List.mem_append_right _ hn) (List.mem_cons_of_mem _ hKey)

end Lookup

theorem Workflow.unrolledName_mem {w : Workflow} {name : String} {r : RepeatState}
    (hState : w.state? name = some (.repeat r)) {i : Nat} (hi : i + 1 < r.count) :
    unrolledName name (i + 1) ∈ w.unrolledNames :=
  List.mem_flatMap.mpr ⟨_, Workflow.mem_states hState, r.unrolledName_mem hi name⟩

namespace Workflow.Unrollable

variable {w : Workflow} (h : w.Unrollable)
include h

theorem validates {name : String} {s : State} (hState : (name, s) ∈ w.states) :
    s.validate name = .ok () :=
  ((Workflow.validate_eq_ok_iff.mp h.valid).2 name s hState).2

theorem not_unrolledName {name : String} (hName : name ∈ Entries.keys w.states) :
    name ∉ w.unrolledNames :=
  fun hNew => h.fresh name hNew hName

theorem declared_of_successor {name next : String} {s : State} {payload : Json}
    (hState : w.state? name = some s) (hNext : s.successor payload = .ok (some next)) :
    next ∈ Entries.keys w.states :=
  ((Workflow.validate_eq_ok_iff.mp h.valid).2 name s (Workflow.mem_states hState)).1 next
    (State.successor_mem hNext)

theorem state?_unrolled {name : String} (hName : name ∈ Entries.keys w.states) :
    w.unrolled.state? name = (w.state? name).map (State.unrolledHead name) :=
  get?_unrolled (fun _ _ hState => h.validates hState) (h.not_unrolledName hName)

/-- The task for each call of a repeat. -/
theorem state?_unrolledName {name : String} {r : RepeatState}
    (hState : w.state? name = some (.repeat r)) {i : Nat} (hi : i < r.count) :
    w.unrolled.state? (unrolledName name i) = some (.task (r.unrolledTask name i)) := by
  cases i with
  | zero =>
    have hName : name ∈ Entries.keys w.states := List.mem_map_of_mem (Workflow.mem_states hState)
    rw [show unrolledName name 0 = name from rfl, h.state?_unrolled hName, hState]
    rfl
  | succ i =>
    exact get?_unrolledName (fun _ _ hState => h.validates hState) h.distinct h.fresh hState hi

end Workflow.Unrollable

/-! ## Walks -/

/-- The states that have their names in the workflow before it is unrolled. -/
def Workflow.ownStates (w : Workflow) (visited : List String) : List String :=
  visited.filter fun name => name ∉ w.unrolledNames

/-- The ends of two runs, the second one of a workflow that is unrolled. Where the first
one fails at a repeat the second one fails at a task of its chain, with the same payload
and for the same cause. -/
inductive Workflow.EndsAlike (w : Workflow) : EndRelation
  | ok (payload : Json) (trace : List String) :
    w.EndsAlike (.ok ⟨payload, w.ownStates trace⟩) (.ok ⟨payload, trace⟩)
  | failed (e : RunError) : w.EndsAlike (.error e) (.error e)
  | failedAtTask {name : String} {r : RepeatState} {i : Nat}
    (hState : w.state? name = some (.repeat r)) (hi : i < r.count) (payload : Json)
    (cause : RunError) :
    w.EndsAlike (.error (.failedAt name payload cause))
      (.error (.failedAt (unrolledName name i) payload cause))

section Walk

variable {w : Workflow} {limits : Limits} {ctx : Context}

theorem Workflow.ownStates_of_mem {name : String} (hName : name ∈ w.unrolledNames)
    (visited : List String) :
    w.ownStates (name :: visited) = w.ownStates visited :=
  List.filter_cons_of_neg (by simpa using hName)

theorem Workflow.Unrollable.ownStates_of_declared (h : w.Unrollable) {name : String}
    (hName : name ∈ Entries.keys w.states) (visited : List String) :
    w.ownStates (name :: visited) = name :: w.ownStates visited :=
  List.filter_cons_of_pos (by simpa using h.not_unrolledName hName)

/-- The last `k` calls of a repeat, and the walk along as many tasks of its chain. `R` is
any relation that calls keep; if the walk is left within the chain, nothing may be said
of walks that are left. -/
theorem Workflow.Unrollable.goOn_chain (h : w.Unrollable) (ctx : Context)
    {R : Process → Process → Prop}
    (hCall : ∀ (r : Request) {next next' : Except ActivityError Json → Process},
      (∀ a, R (next a) (next' a)) → R (.call r next) (.call r next'))
    {name : String} {r : RepeatState} (hState : w.state? name = some (.repeat r))
    (hFail : ∀ i < r.count, ∀ payload cause,
      R (.fail (.failedAt name payload cause))
        (.fail (.failedAt (unrolledName name i) payload cause)))
    (site : Site) (hName : site.name = name) (hId : site.requestId = ctx.requestId)
    {goOn : Json → Process} {before : List String} (k : Nat) :
    ∀ {i fuel : Nat} (payload : Json) (visited : List String), i + k = r.count →
      (fuel < k → ∀ p, R p .exhausted) →
      w.ownStates (if i = 0 then name :: visited else visited) = before →
      (∀ v visited', w.ownStates visited' = before →
        R (goOn v) (w.unrolled.goOn limits (fuel - k) ctx r.next v visited')) →
      R ((site.repeatCalls r.activity k payload).andThen fun o => goOn o.payload)
        (w.unrolled.goOn limits fuel ctx (if i < r.count then some (unrolledName name i)
          else r.next) payload visited) := by
  have hSome : r.count ≠ 0 :=
    State.validate_repeat_eq_ok_iff.mp (h.validates (Workflow.mem_states hState))
  induction k with
  | zero =>
    intro i fuel payload visited hCount _ hBefore hGoOn
    rw [if_neg (by omega)]
    rw [if_neg (by omega)] at hBefore
    exact hGoOn payload visited hBefore
  | succ k ih =>
    intro i fuel payload visited hCount hLeft hBefore hGoOn
    have hi : i < r.count := by omega
    rw [if_pos hi]
    change R _ (w.unrolled.walk limits fuel ctx (unrolledName name i) payload visited)
    cases fuel with
    | zero => exact hLeft (by omega) _
    | succ fuel =>
      rw [Workflow.walk_task (h.state?_unrolledName hState hi), Site.repeatCalls, Site.request, hId]
      refine hCall _ fun a => ?_
      cases a with
      | error e =>
        dsimp only
        rw [Site.fail, hName]
        exact hFail i hi payload _
      | ok v =>
        refine ih v _ (by omega) (fun hShort => hLeft (by omega)) ?_ fun v visited' hVisited => ?_
        · rw [if_neg (by omega), ← hBefore]
          cases i with
          | zero => rfl
          | succ i => exact Workflow.ownStates_of_mem (Workflow.unrolledName_mem hState hi) visited
        · rw [show fuel - k = fuel + 1 - (k + 1) by omega]
          exact hGoOn v visited' hVisited

/-! ## Both walks -/

theorem RepeatState.length_unrolled (r : RepeatState) (name : String) :
    ((State.repeat r).unrolled name).length = r.count := by
  simp [State.unrolled, RepeatState.unrolled]

/-- The chain of a repeat is no longer than the unrolled workflow has states. -/
theorem Workflow.length_unrolled_le {name : String} {s : State} (hState : w.state? name = some s) :
    (s.unrolled name).length ≤ w.unrolled.states.length :=
  (List.infix_flatMap_of_mem (Workflow.mem_states hState) fun e => e.2.unrolled e.1).length_le

theorem Workflow.Unrollable.length_unrolled_pos (h : w.Unrollable) {name : String} {s : State}
    (hState : w.state? name = some s) : 0 < (s.unrolled name).length := by
  have hKeys :=
    congrArg List.length (State.keys_unrolled (h.validates (Workflow.mem_states hState)))
  rw [Entries.keys, List.length_map, List.length_cons] at hKeys
  omega

/-- One state of a workflow, and the walk along the states that take its place. How `R` is carried
on over them is what the hypotheses say: over calls, over a transition that is the same on both
sides, and to what comes next. -/
theorem Workflow.Unrollable.walk_state (h : w.Unrollable) {R : Process → Process → Prop}
    (hCall : ∀ (r : Request) {next next' : Except ActivityError Json → Process},
      (∀ a, R (next a) (next' a)) → R (.call r next) (.call r next'))
    (hEnd : ∀ {r r' : Except RunError Outcome}, w.EndsAlike r r' → R (.done r) (.done r'))
    {name : String} {s : State} (hState : w.state? name = some s) {fuel fuel' : Nat}
    (payload : Json) (visited' : List String)
    (hLeft : fuel' < (s.unrolled name).length → ∀ p, R p .exhausted)
    (hTransition : ∀ {f f' : Outcome → Process}, (∀ o, R (f o) (f' o)) →
      R ((s.transition (ctx.siteAt limits fuel name) limits payload).andThen f)
        ((s.transition (ctx.siteAt limits (fuel' - 1) name) limits payload).andThen f'))
    (hGoOn : ∀ {next : Option String}, s.successor payload = .ok next → ∀ v visited'',
      w.ownStates visited'' = name :: w.ownStates visited' →
      R (w.goOn limits fuel ctx next v (name :: w.ownStates visited'))
        (w.unrolled.goOn limits (fuel' - (s.unrolled name).length) ctx next v visited'')) :
    R (w.walk limits (fuel + 1) ctx name payload (w.ownStates visited'))
      (w.unrolled.walk limits fuel' ctx name payload visited') := by
  have hName : name ∈ Entries.keys w.states := List.mem_map_of_mem (Workflow.mem_states hState)
  have hOwn := h.ownStates_of_declared hName visited'
  have hSome := h.length_unrolled_pos hState
  by_cases hKind : ∃ r, s = .repeat r
  · obtain ⟨r, rfl⟩ := hKind
    rw [RepeatState.length_unrolled] at hLeft hGoOn hSome
    have hChain := h.goOn_chain ctx hCall hState
      (fun i hi payload cause => hEnd (.failedAtTask hState hi payload cause))
      (ctx.siteAt limits fuel name) rfl rfl r.count payload visited' (Nat.zero_add _) hLeft hOwn
      (hGoOn rfl)
    rw [if_pos hSome] at hChain
    rw [Workflow.walk_of_state hState]
    exact hChain
  · have hSame : w.unrolled.state? name = some s := by
      rw [h.state?_unrolled hName, hState, Option.map_some, State.unrolledHead_eq fun r hr =>
        hKind ⟨r, hr⟩]
    have hOne : (s.unrolled name).length = 1 := by
      rw [State.unrolled_eq fun r hr => hKind ⟨r, hr⟩, List.length_singleton]
    rw [hOne] at hLeft hGoOn
    cases fuel' with
    | zero => exact hLeft Nat.one_pos _
    | succ fuel' =>
      rw [Workflow.walk_of_state hState, Workflow.walk_of_state hSame]
      cases hNext : s.successor payload with
      | error e => exact hEnd (.failed _)
      | ok next => exact hTransition fun o => hGoOn hNext o.payload _ hOwn

theorem Workflow.EndsAlike.none (payload : Json) (visited : List String) :
    w.EndsAlike (.ok ⟨payload, (w.ownStates visited).reverse⟩)
      (.ok ⟨payload, visited.reverse⟩) := by
  rw [Workflow.ownStates, ← List.filter_reverse]
  exact .ok payload visited.reverse

/-- A walk of a workflow falls short of that of the unrolled one, which takes a chain of
states for one state. -/
theorem Workflow.Unrollable.walk_shortOf_unrolled (h : w.Unrollable) (fuel : Nat) :
    ∀ {fuel' : Nat} {name : String} (payload : Json) (visited : List String),
      fuel * w.unrolled.states.length ≤ fuel' → name ∈ Entries.keys w.states →
      (w.walk limits fuel ctx name payload (w.ownStates visited)).ShortOf w.EndsAlike
        (w.unrolled.walk limits fuel' ctx name payload visited) := by
  induction fuel with
  | zero =>
    intro fuel' name payload visited _ _
    rw [Workflow.walk]
    exact .exhausted _
  | succ fuel ih =>
    intro fuel' name payload visited hFuel hName
    obtain ⟨s, hState⟩ := Workflow.exists_state hName
    have hSome := h.length_unrolled_pos hState
    have hLength := Workflow.length_unrolled_le hState
    rw [Nat.add_mul, Nat.one_mul] at hFuel
    refine h.walk_state (fun r => .call r) .done hState payload visited
      (fun hShort => by omega) ?_ ?_
    · intro f f' hf
      have hLess : fuel ≤ fuel' - 1 := by
        have := Nat.le_mul_of_pos_right fuel (Nat.lt_of_lt_of_le hSome hLength)
        omega
      have hSite := Context.siteAt_shortOf limits ctx name fun child inner input =>
        Workflow.walk_shortOf fuel child inner inner.root input [] hLess
      exact Process.ShortOf.andThen hf (fun e => .failed e)
        (State.transition_related Process.shortOf_congruence hSite rfl s payload)
    · intro next hNext v visited' hVisited
      rw [← hVisited]
      cases next with
      | none => exact .done (.none v visited')
      | some next => exact ih v visited' (by omega) (h.declared_of_successor hState hNext)

/-- A walk of the unrolled workflow falls short of that of the workflow itself. -/
theorem Workflow.Unrollable.unrolled_walk_shortOf (h : w.Unrollable) (fuel' : Nat) :
    ∀ {fuel : Nat} {name : String} (payload : Json) (visited : List String),
      fuel' ≤ fuel → name ∈ Entries.keys w.states →
      (w.unrolled.walk limits fuel' ctx name payload visited).ShortOf (fun r' r => w.EndsAlike r r')
        (w.walk limits fuel ctx name payload (w.ownStates visited)) := by
  induction fuel' using Nat.strong_induction_on with
  | _ fuel' ih =>
    intro fuel name payload visited hFuel hName
    cases fuel with
    | zero =>
      rw [Nat.le_zero.mp hFuel, Workflow.walk]
      exact .exhausted _
    | succ fuel =>
      obtain ⟨s, hState⟩ := Workflow.exists_state hName
      have hSome := h.length_unrolled_pos hState
      refine h.walk_state (R := fun p p' => p'.ShortOf (fun r' r => w.EndsAlike r r') p)
        (fun r => .call r) (fun hEnd => .done hEnd) hState payload visited
        (fun _ => .exhausted) ?_ ?_
      · intro f f' hf
        have hLess : fuel' - 1 ≤ fuel := by omega
        have hSite := Context.siteAt_shortOf limits ctx name fun child inner input =>
          Workflow.walk_shortOf (fuel' - 1) child inner inner.root input [] hLess
        exact Process.ShortOf.andThen hf (fun e => .failed e)
          (State.transition_related Process.shortOf_congruence hSite rfl s payload)
      · intro next hNext v visited' hVisited
        rw [← hVisited]
        cases next with
        | none => exact .done (.none v visited')
        | some next =>
          cases fuel' with
          | zero =>
            rw [Nat.zero_sub]
            exact .exhausted _
          | succ fuel' =>
            exact ih _ (by omega) v visited' (by omega) (h.declared_of_successor hState hNext)

end Walk

/-! ## Whole runs -/

/-- A workflow and the one with its repeats unrolled run alike, whatever their calls are
answered, be it differently each time: a run of one that ends has one of the other that ends
after the same calls and as much time, with the same payload and trace but for the new names, or
with the same failure. Of runs that are followed only so far, each makes the calls of the other
as that one is followed further. -/
theorem Workflow.unrolled_runsAlike {w : Workflow} (h : w.Unrollable) (limits : Limits)
    (caller : Caller) (requestId : String) (payload : Json) :
    (∀ fuel e, w.run limits caller fuel requestId payload = some e → ∃ bound, ∀ fuel' ≥ bound, ∃ e',
      w.unrolled.run limits caller fuel' requestId payload = some e' ∧
        w.EndsAlike e.result e'.result ∧ e'.calls = e.calls ∧ e'.elapsed = e.elapsed) ∧
    (∀ fuel' e', w.unrolled.run limits caller fuel' requestId payload = some e' →
      ∀ fuel ≥ fuel', ∃ e, w.run limits caller fuel requestId payload = some e ∧
        w.EndsAlike e.result e'.result ∧ e.calls = e'.calls ∧ e.elapsed = e'.elapsed) ∧
    (∀ fuel, ∃ bound, ∀ fuel' ≥ bound, w.callsWithin limits caller fuel requestId payload <+:
      w.unrolled.callsWithin limits caller fuel' requestId payload) ∧
    ∀ fuel', ∀ fuel ≥ fuel', w.unrolled.callsWithin limits caller fuel' requestId payload <+:
      w.callsWithin limits caller fuel requestId payload := by
  have hRoot : w.root ∈ Entries.keys w.states := (Workflow.validate_eq_ok_iff.mp h.valid).1
  obtain ⟨s, hState⟩ := Workflow.exists_state hRoot
  have hMore (fuel : Nat) : fuel ≤ fuel * w.unrolled.states.length :=
    Nat.le_mul_of_pos_right fuel
      (Nat.lt_of_lt_of_le (h.length_unrolled_pos hState) (Workflow.length_unrolled_le hState))
  have hForth {fuel fuel' : Nat} (hFuel : fuel * w.unrolled.states.length ≤ fuel') :
      (w.process limits fuel requestId payload).ShortOf w.EndsAlike
        (w.unrolled.process limits fuel' requestId payload) :=
    h.walk_shortOf_unrolled fuel payload [] hFuel hRoot
  have hBack {fuel fuel' : Nat} (hFuel : fuel' ≤ fuel) :
      (w.unrolled.process limits fuel' requestId payload).ShortOf (fun r' r => w.EndsAlike r r')
        (w.process limits fuel requestId payload) :=
    h.unrolled_walk_shortOf fuel' payload [] hFuel hRoot
  refine ⟨fun fuel e hRun => ⟨fuel * w.unrolled.states.length, fun fuel' hFuel => ?_⟩,
    fun fuel' e' hRun fuel hFuel => ?_, fun fuel =>
      ⟨fuel * w.unrolled.states.length, fun fuel' hFuel => ?_⟩,
    fun fuel' fuel hFuel => ?_⟩
  · exact Workflow.run_of_shortOf (Nat.le_trans (hMore fuel) hFuel) (hForth hFuel) hRun
  · exact Workflow.run_of_shortOf hFuel (hBack hFuel) hRun
  · exact Workflow.callsWithin_of_shortOf (Nat.le_trans (hMore fuel) hFuel) (hForth hFuel)
  · exact Workflow.callsWithin_of_shortOf hFuel (hBack hFuel)

/-- Two calls at a time until an answer says that it is enough, and two calls after that. -/
def untilEnough : Workflow :=
  ⟨"ask", [("ask", .repeat ⟨"f", 2, some "enough"⟩),
    ("enough", .switch ⟨[⟨"enough", .equals, .bool false, "ask"⟩], some "tell"⟩),
    ("tell", .repeat ⟨"g", 2, none⟩)]⟩

/-- Answers whether it is enough, which is so from the fourth call on; each call takes
longer than the one before. -/
def enoughAtFour : Caller :=
  fun past _ => ⟨.ok (.obj [("enough", .bool (3 ≤ past.length))]), past.length⟩

/-- The first repeat is run through twice, as a chain of tasks and as such. -/
theorem Workflow.unrolled_runsAlike_untilEnough :
    let no : Json := .obj [("enough", .bool false)]
    let yes : Json := .obj [("enough", .bool true)]
    let calls : List Request :=
      [⟨"f", .null, "r"⟩, ⟨"f", no, "r"⟩, ⟨"f", no, "r"⟩, ⟨"f", no, "r"⟩, ⟨"g", yes, "r"⟩,
        ⟨"g", yes, "r"⟩]
    untilEnough.Unrollable ∧
      untilEnough.unrolled.run ⟨3, some 9, none⟩ enoughAtFour 10 "r" .null = some ⟨"r",
        .ok ⟨yes, ["ask", "ask_1", "enough", "ask", "ask_1", "enough", "tell", "tell_1"]⟩,
        calls, 15⟩ ∧
      ∃ e, untilEnough.run ⟨3, some 9, none⟩ enoughAtFour 10 "r" .null = some e ∧
        e.result = .ok ⟨yes, ["ask", "enough", "ask", "enough", "tell"]⟩ ∧ e.calls = calls ∧
        e.elapsed = 15 := by
  intro no yes calls
  have hUnrollable : untilEnough.Unrollable := ⟨rfl, by decide, by decide⟩
  have hUnrolled : untilEnough.unrolled.run ⟨3, some 9, none⟩ enoughAtFour 10 "r" .null = some ⟨"r",
      .ok ⟨yes, ["ask", "ask_1", "enough", "ask", "ask_1", "enough", "tell", "tell_1"]⟩, calls,
      15⟩ := rfl
  refine ⟨hUnrollable, hUnrolled, ?_⟩
  obtain ⟨e, hRun, hEnds, hCalls, hElapsed⟩ :=
    (Workflow.unrolled_runsAlike hUnrollable ⟨3, some 9, none⟩ enoughAtFour "r" .null).2.1 10 _
      hUnrolled 10 (Nat.le_refl 10)
  refine ⟨e, hRun, ?_, hCalls, hElapsed⟩
  generalize e.result = result at hEnds
  cases hEnds
  rfl

end Orchestration
