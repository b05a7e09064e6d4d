import Orchestration.Proofs.Run.Alone
import Orchestration.Proofs.Run.FanOut
import Orchestration.Proofs.Run.Fuel
import Orchestration.Proofs.Run.Termination
import Orchestration.Proofs.Run.Visits
import Orchestration.Proofs.Workflow.Acyclic

/-!
# Runs without cycles

A workflow without cycles ends, whatever its calls are answered.

* `Process.Total`: a process that is followed to the end, whichever way it goes.
* `Workflow.walkOnce` is a walk that does something else where it comes to a state for the second
  time. It is total in any workflow if it is followed far enough (`Workflow.walkOnce_total`).
* `Workflow.walkOnce_eq_walk`: without cycles no walk does, at any level.
* `Workflow.run_ends`: runs without cycles.
-/

namespace Orchestration

variable {env : Environment} {limits : Limits}

/-! ## Processes that are followed to the end -/

/-- The process is followed to its end, whatever its calls and its strands come to. -/
inductive Process.Total : Process → Prop
  | done (result : Except RunError Outcome) : Total (.done result)
  | call {r : Request} {next : Except ActivityError Json → Process} (hNext : ∀ a, Total (next a)) :
    Total (.call r next)
  | fork {width : Width} {strands : List Process} {next : Except RunError (List Outcome) → Process}
    (hStrands : ∀ p ∈ strands, Total p) (hNext : ∀ r, Total (next r)) :
      Total (.fork width strands next)

theorem Process.Total.andThen {p : Process} {f : Outcome → Process} (h : p.Total)
    (hf : ∀ o, (f o).Total) :
    (p.andThen f).Total := by
  induction h with
  | done result =>
    cases result with
    | ok o => exact hf o
    | error e => exact .done _
  | call _ ih => exact .call ih
  | fork hStrands _ _ ih => exact .fork hStrands ih

/-- A call waits for its answer, or it has gone on with one. -/
theorem Process.Becomes.of_call {r : Request} {next : Except ActivityError Json → Process}
    {t : Strand} (h : (Process.call r next).Becomes env t) :
    (∃ due ticket a, t = .waiting due ticket a next) ∨ ∃ a, (next a).Becomes env t := by
  induction h with
  | start w =>
    rw [Process.start]
    split
    · exact .inr ⟨_, .start _⟩
    · exact .inl ⟨_, _, _, rfl⟩
  | resume _ w ih =>
    rcases ih with ⟨due, ticket, a, rfl⟩ | ⟨a, hNext⟩
    · rw [Strand.resume]
      split
      · exact .inr ⟨a, .start w⟩
      · exact .inl ⟨due, ticket, a, rfl⟩
    · exact .inr ⟨a, hNext.resume w⟩

theorem Process.Total.followed {p : Process} (h : p.Total) : ¬ p.Becomes env .exhausted := by
  induction h with
  | done result =>
    intro hStops
    cases Process.becomes_done hStops
  | call _ ih =>
    intro hStops
    rcases hStops.of_call with ⟨_, _, _, ⟨⟩⟩ | ⟨a, hNext⟩
    exact ih a hNext
  | fork _ _ ihStrands ihNext =>
    intro hStops
    rcases hStops.stops_of_fork with ⟨p, hMem, hOwn⟩ | ⟨r, hNext⟩
    · exact ihStrands p hMem hOwn
    · exact ihNext r hNext

theorem Process.total_congruence : Process.Congruence fun p _ => p.Total where
  value payload := .done _
  fail e := .done _
  call := by
    intro r next _ hOk hError
    refine .call fun a => ?_
    cases a with
    | ok v => exact hOk v
    | error e =>
      obtain ⟨e', hFail, -⟩ := hError e
      exact hFail ▸ .done _
  fork := by
    intro width strands strands' next _ hStrands hOk hError
    refine .fork (fun p hMem => ?_) fun r => ?_
    · obtain ⟨_, -, hTotal⟩ := exists_of_forall₂ hStrands hMem
      exact hTotal
    · cases r with
      | ok os => exact hOk os
      | error e =>
        obtain ⟨e', hFail, -⟩ := hError e
        exact hFail ▸ .done _

/-- A state is followed to its end if the workflows are that it runs one level deeper. -/
theorem State.transition_total {s : State} {site : Site}
    (hInner : ∀ w, s.Nests w → ∀ input, (site.enter w input).Total) (payload : Json) :
    (s.transition site limits payload).Total := by
  classical
  -- The state does not tell this place from its own, and all workflows are
  -- followed to the end there.
  let site' : Site :=
    { site with enter := fun w input => if s.Nests w then site.enter w input else .value .null }
  have hAgrees : Site.Agrees s site site' := ⟨rfl, rfl, fun hNests _ => (if_pos hNests).symm⟩
  have hRelated : site'.Related (fun p _ => p.Total) site' := by
    refine ⟨rfl, rfl, fun w input => ?_⟩
    dsimp only [site']
    split
    · exact hInner w ‹_› input
    · exact .done _
  rw [State.transition_congr hAgrees]
  exact State.transition_related Process.total_congruence hRelated rfl s payload

/-! ## Walks that do not come back -/

namespace Workflow

/-- A walk that does something else where it comes to a state for the second time, or to more states
than the workflow has, here or in a workflow inside. -/
def walkOnce (again : Process) (limits : Limits) : Nat → Context → Workflow → String → Json →
    List String → Process
  | 0, _, _, _, _, _ => .exhausted
  | fuel + 1, ctx, w, name, payload, visited =>
    match w.state? name with
    | none => .fail (.failedAt name payload (.unknownState name))
    | some s =>
      let enter (inner : Workflow) (input : Json) : Process :=
        match ctx.nested? limits.maxDepth with
        | none => .fail (.depthExceeded limits.maxDepth)
        | some child => walkOnce again limits fuel child inner inner.root input []
      let site : Site := ⟨name, ctx.requestId, enter⟩
      if w.Once (name :: visited) then
        match s.successor payload with
        | .error e => site.fail payload e
        | .ok next =>
          (s.transition site limits payload).andThen fun o =>
            match next with
            | none => .done (.ok ⟨o.payload, (name :: visited).reverse⟩)
            | some next => walkOnce again limits fuel ctx w next o.payload (name :: visited)
      else again

def runOnce (again : Process) (w : Workflow) (limits : Limits) (caller : Caller) (fuel : Nat)
    (requestId : String) (payload : Json) : Option Execution :=
  let env : Environment := ⟨caller, limits.activityTimeout⟩
  let p := w.walkOnce again limits fuel (.top requestId) w.root payload []
  let (s, world) := p.start env ⟨0, []⟩
  (s.settle env fuel world).map fun (result, world) =>
    ⟨requestId, result, world.past.reverse, world.now⟩

variable {again : Process} {w : Workflow} {ctx : Context}

/-- How a workflow runs that stands inside a workflow of this context. -/
def enterOnce (again : Process) (limits : Limits) (fuel : Nat) (ctx : Context) (inner : Workflow)
    (input : Json) :
    Process :=
  match ctx.nested? limits.maxDepth with
  | none => .fail (.depthExceeded limits.maxDepth)
  | some child => inner.walkOnce again limits fuel child inner.root input []

theorem walkOnce_of_state {name : String} {s : State} (hState : w.state? name = some s) (fuel : Nat)
    (payload : Json) (visited : List String) :
    w.walkOnce again limits (fuel + 1) ctx name payload visited =
      if w.Once (name :: visited) then
        match s.successor payload with
        | .error e => .fail (.failedAt name payload e)
        | .ok next =>
          (s.transition ⟨name, ctx.requestId, enterOnce again limits fuel ctx⟩ limits
              payload).andThen fun o =>
            match next with
            | none => .done (.ok ⟨o.payload, (name :: visited).reverse⟩)
            | some next => w.walkOnce again limits fuel ctx next o.payload (name :: visited)
      else again := by
  rw [walkOnce, hState]
  rfl

/-- Followed for as many steps as the workflow is large, such a walk is total: on each level it
comes to no more states than there are, and that leaves enough for what is nested in one of them. -/
theorem walkOnce_total (hAgain : again.Total) (fuel : Nat) :
    ∀ {ctx : Context} {w : Workflow} {name : String} {payload : Json} {visited : List String},
      visited.length ≤ w.states.length → sizeOf w ≤ fuel + visited.length →
      (w.walkOnce again limits fuel ctx name payload visited).Total := by
  induction fuel with
  | zero =>
    intro ctx w name payload visited hVisited hFuel
    have := w.length_lt_sizeOf
    omega
  | succ fuel ih =>
    intro ctx w name payload visited hVisited hFuel
    cases hState : w.state? name with
    | none =>
      rw [walkOnce, hState]
      exact .done _
    | some s =>
      rw [walkOnce_of_state hState]
      split
      · rename_i hOnce
        have hRoom : visited.length + 1 ≤ w.states.length := hOnce.2
        cases s.successor payload with
        | error e => exact .done _
        | ok next =>
          refine (State.transition_total (fun inner hNests input => ?_) payload).andThen fun o => ?_
          · change (enterOnce again limits fuel ctx inner input).Total
            unfold enterOnce
            split
            · exact .done _
            · have hOwn := length_add_sizeOf_lt (mem_states hState)
              have hInner := hNests.enters.sizeOf_lt
              exact ih (Nat.zero_le _) (by rw [List.length_nil]; omega)
          · cases next with
            | none => exact .done _
            | some next => exact ih hRoom (by rw [List.length_cons]; omega)
      · exact hAgain

/-- Without cycles a walk does not come to a state for the second time. -/
theorem walkOnce_eq_walk (again : Process) (fuel : Nat) :
    ∀ {ctx : Context} {w : Workflow} {name : String} {payload : Json} {visited : List String},
      w.AcyclicThroughout → (name :: visited).IsChain (flip w.LeadsTo) →
      visited ⊆ Entries.keys w.states →
      w.walkOnce again limits fuel ctx name payload visited =
        w.walk limits fuel ctx name payload visited := by
  induction fuel with
  | zero =>
    intro ctx w name payload visited _ _ _
    rfl
  | succ fuel ih =>
    intro ctx w name payload visited hAcyclic hPath hVisited
    cases hState : w.state? name with
    | none => rw [walkOnce, walk_succ, hState]
    | some s =>
      have hDeclared : name :: visited ⊆ Entries.keys w.states :=
        List.cons_subset.mpr ⟨List.mem_map_of_mem (mem_states hState), hVisited⟩
      have hOnce : w.Once (name :: visited) :=
        once_reverse.mp ((hAcyclic w (.self w)).once (List.isChain_reverse.mpr hPath)
          (List.reverse_subset.mpr hDeclared))
      have hAgrees : Site.Agrees s ⟨name, ctx.requestId, enterOnce again limits fuel ctx⟩
          (ctx.siteAt limits fuel name) := by
        refine ⟨rfl, rfl, fun {inner} hNests input => ?_⟩
        change enterOnce again limits fuel ctx inner input = ctx.enter limits fuel inner input
        unfold enterOnce Context.enter
        cases ctx.nested? limits.maxDepth with
        | none => rfl
        | some child =>
          exact ih (hAcyclic.enters (mem_states hState) hNests.enters) (.singleton _)
            (List.nil_subset _)
      rw [walkOnce_of_state hState, walk_of_state hState, if_pos hOnce]
      cases hNext : s.successor payload with
      | error e => rfl
      | ok next =>
        dsimp only
        rw [State.transition_congr hAgrees]
        congr 1
        funext o
        cases next with
        | none => rfl
        | some next =>
          have hLeads : w.LeadsTo name next := ⟨s, hState, State.successor_mem hNext⟩
          exact ih hAcyclic (.cons_cons hLeads hPath) hDeclared

/-! ## Traces -/

/-- The visits of a walk go along a path of declared states. -/
theorem Itinerary.isChain {name : String} {payload result : Json} {start finish : World}
    {visits : List Visit} (h : w.Itinerary env limits ctx name payload start visits result finish) :
    (visits.map Visit.name).IsChain w.LeadsTo := by
  rw [List.isChain_map]
  refine (List.IsChain.iff_mem.mp h.follows).imp fun v v' hMem => ?_
  exact ⟨v.state, (h.each v hMem.1).declared, hMem.2.2.target⟩

theorem Itinerary.declared {name : String} {payload result : Json} {start finish : World}
    {visits : List Visit} (h : w.Itinerary env limits ctx name payload start visits result finish) :
    visits.map Visit.name ⊆ Entries.keys w.states := by
  intro n hn
  obtain ⟨v, hMem, rfl⟩ := List.mem_map.mp hn
  exact List.mem_map_of_mem (mem_states (h.each v hMem).declared)

/-- A workflow that ends well has come to no state twice. -/
theorem Acyclic.once_trace (hAcyclic : w.Acyclic) {fuel : Nat} {input : Json} {start finish : World}
    {o : Outcome} (h : (w.walk limits fuel ctx w.root input []).EndsIn env start (.ok o) finish) :
    w.Once o.trace := by
  obtain ⟨visits, hItinerary, hTrace⟩ := walk_itinerary fuel h
  rw [hTrace]
  exact hAcyclic.once hItinerary.isChain hItinerary.declared

/-! ## Whole runs -/

/-- From some number of steps on, a total process settles in the same way in runs that
are followed further. -/
theorem exists_run_of_total (caller : Caller) {fuel : Nat} {requestId : String} {payload : Json}
    (h : (w.process limits fuel requestId payload).Total) :
    ∃ bound e, ∀ fuel', bound ≤ fuel' → w.run limits caller fuel' requestId payload = some e := by
  let env : Environment := ⟨caller, limits.activityTimeout⟩
  have hRegular : (w.process limits fuel requestId payload).Regular :=
    walk_regular fuel _ w _ payload []
  have hFollowed : ¬ (w.process limits fuel requestId payload).Becomes env .exhausted := h.followed
  obtain ⟨steps, result, final, hSettle⟩ := Process.exists_settle hRegular hFollowed ⟨0, []⟩
  refine ⟨max fuel steps, ⟨requestId, result, final.past.reverse, final.now⟩,
    fun fuel' hBound => ?_⟩
  have hFuel : fuel ≤ fuel' := Nat.le_trans (Nat.le_max_left _ _) hBound
  have hSteps : steps ≤ fuel' := Nat.le_trans (Nat.le_max_right _ _) hBound
  have hFurther : (w.process limits fuel requestId payload).ShortOf Eq
      (w.process limits fuel' requestId payload) := walk_shortOf fuel _ w _ payload [] hFuel
  obtain ⟨result', rfl, hSettle'⟩ :=
    Strand.settle_of_fallsShort steps hSteps (Process.start_fallsShort _ _ ⟨0, []⟩ hFurther) hSettle
  exact Option.map_eq_some_iff.mpr ⟨_, hSettle', rfl⟩

/-- A run of a workflow that has no cycles at any level comes to an end, with success or failure,
whatever the limits are and whatever its calls are answered, and it is followed to this end if it is
followed long enough. It does nothing else if walks do something else, at any level, where they come
to a state for the second time. So the trace of the run has no state twice, and neither has that of
a run of any workflow inside. -/
theorem run_ends (hAcyclic : w.AcyclicThroughout) (limits : Limits) (caller : Caller)
    (requestId : String) (payload : Json) :
    (∃ bound e, (∀ fuel, bound ≤ fuel → w.run limits caller fuel requestId payload = some e) ∧
      ∀ o, e.result = .ok o → w.Once o.trace) ∧
    (∀ again fuel, w.runOnce again limits caller fuel requestId payload =
      w.run limits caller fuel requestId payload) ∧
    ∀ v, w.Reaches v → ∀ env ctx fuel input start o finish,
      (v.walk limits fuel ctx v.root input []).EndsIn env start (.ok o) finish →
        v.Once o.trace := by
  have hSame (again : Process) (fuel : Nat) :
      w.walkOnce again limits fuel (.top requestId) w.root payload [] =
        w.process limits fuel requestId payload :=
    walkOnce_eq_walk again fuel hAcyclic (.singleton _) (List.nil_subset _)
  refine ⟨?_, fun again fuel => ?_, fun v hReaches env ctx fuel input start o finish h => ?_⟩
  · have hTotal : (w.process limits (sizeOf w) requestId payload).Total :=
      hSame (.value .null) _ ▸ walkOnce_total (.done _) _ (Nat.zero_le _) (Nat.le_refl _)
    obtain ⟨bound, e, hRun⟩ := exists_run_of_total caller hTotal
    refine ⟨bound, e, hRun, fun o hOk => ?_⟩
    obtain ⟨⟨result, final⟩, hSettle, rfl⟩ := Option.map_eq_some_iff.mp (hRun bound (Nat.le_refl _))
    cases hOk
    exact (hAcyclic w (.self w)).once_trace ⟨bound, hSettle⟩
  · unfold runOnce run
    rw [hSame]
  · exact (hAcyclic.reaches hReaches v (.self v)).once_trace h

/-- A detour for elements that are `true`. -/
def detour : Workflow :=
  ⟨"s", [("s", .switch ⟨[⟨"x", .equals, .bool true, "t"⟩], some "u"⟩), ("t", .task ⟨"f", some "u"⟩),
    ("u", .task ⟨"g", none⟩)]⟩

def twoTasks : Workflow := ⟨"a", [("a", .task ⟨"f", some "b"⟩), ("b", .task ⟨"g", none⟩)]⟩

def mapThenTask : Workflow :=
  ⟨"n", [("n", .map ⟨.activity "f", "xs", none, none, some "o"⟩), ("o", .task ⟨"g", none⟩)]⟩

/-- A map with a body of its own, and then two branches that go on after their roots. -/
def forked : Workflow :=
  ⟨"m", [("m", .map ⟨.workflow detour, "xs", none, none, some "p"⟩),
    ("p", .parallel ⟨[⟨none, twoTasks⟩, ⟨none, mapThenTask⟩], none⟩)]⟩

/-- It ends well if workflows may be nested once, and fails if they may not. -/
theorem run_ends_forked :
    let payload : Json := .single "xs" (.arr [.single "x" (.bool true), .single "x" .null])
    forked.AcyclicThroughout ∧
      (∀ limits, ∃ bound e,
        (∀ fuel, bound ≤ fuel → forked.run limits .echo fuel "r" payload = some e) ∧
        ∀ o, e.result = .ok o → forked.Once o.trace) ∧
      (∃ e o, forked.runOnce .exhausted ⟨1, none, none⟩ .echo 9 "r" payload = some e ∧
        e.result = .ok o ∧ o.trace = ["m", "p"]) ∧
      ∃ e err, forked.runOnce .exhausted ⟨0, none, none⟩ .echo 9 "r" payload = some e ∧
      e.result = .error err := by
  intro payload
  have hDetour : detour.AcyclicThroughout := by
    refine acyclicThroughout_iff.mpr ⟨acyclic_of_rank (["s", "t", "u"].idxOf ·) (by decide), ?_⟩
    intro e hState v hEmbeds
    rcases hState with _ | ⟨_, _ | ⟨_, _ | ⟨_, ⟨⟩⟩⟩⟩ <;> cases hEmbeds
  have hTasks : twoTasks.AcyclicThroughout := by
    refine acyclicThroughout_iff.mpr ⟨acyclic_of_rank (["a", "b"].idxOf ·) (by decide), ?_⟩
    intro e hState v hEmbeds
    rcases hState with _ | ⟨_, _ | ⟨_, ⟨⟩⟩⟩ <;> cases hEmbeds
  have hMap : mapThenTask.AcyclicThroughout := by
    refine acyclicThroughout_iff.mpr ⟨acyclic_of_rank (["n", "o"].idxOf ·) (by decide), ?_⟩
    intro e hState v hEmbeds
    rcases hState with _ | ⟨_, _ | ⟨_, ⟨⟩⟩⟩
    · rcases hEmbeds with ⟨⟨⟩⟩
    · cases hEmbeds
  have hAcyclic : forked.AcyclicThroughout := by
    refine acyclicThroughout_iff.mpr ⟨acyclic_of_rank (["m", "p"].idxOf ·) (by decide), ?_⟩
    intro e hState v hEmbeds
    rcases hState with _ | ⟨_, _ | ⟨_, ⟨⟩⟩⟩
    · rcases hEmbeds with ⟨⟨⟩⟩
      exact hDetour
    · rcases hEmbeds with _ | hBranch
      rcases hBranch with _ | ⟨_, _ | ⟨_, ⟨⟩⟩⟩
      · exact hTasks
      · exact hMap
  have hSame (limits : Limits) := (run_ends hAcyclic limits .echo "r" payload).2.1 .exhausted 9
  refine ⟨hAcyclic, fun limits => (run_ends hAcyclic limits .echo "r" payload).1, ?_, ?_⟩
  · rw [hSame]
    exact ⟨_, _, rfl, rfl, rfl⟩
  · rw [hSame]
    exact ⟨_, _, rfl, rfl⟩

end Workflow

end Orchestration
