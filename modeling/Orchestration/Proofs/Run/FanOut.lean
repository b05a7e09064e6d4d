import Orchestration.Proofs.Run.Termination
import Orchestration.Proofs.Run.WindowLog

/-!
# Maps fan out

What becomes of a fork with a window, along with the log of its window.

* `FanOut.tells`: the log tells how far the window has come.
* `FanOut.fails`: if elements fail, the fork fails as the first of them does, in their order and not
  in that of their failures.
* `MapState.fansOut`: a map starts its elements in order, keeps to its limit at every moment, fails
  as the first of its elements that fails, and ends if they do.
-/

namespace Orchestration

/-- A window in which nothing goes on any more: it failed, is through or was not followed. -/
def Progress.IsOver (r : Progress WindowState) : Prop := ∀ s, r = .going s → ¬ s.IsOpen

/-- What a fork has become: what has happened in its window until then, how far the window has come,
and the strand. Once the window is over, the log stays as it is, however the strand goes on. -/
inductive FanOut (env : Environment) (limit : Nat) (elements : List Process)
    (next : Except RunError (List Outcome) → Process) : WindowLog → Progress WindowState →
      Strand → Prop
  | start (w : World) : FanOut env limit elements next (fillLog env limit [] [] elements w)
    (fill env limit [] [] elements w).1 ((Process.fork (.window limit) elements next).start env w).1
  | resume {log : WindowLog} {s : WindowState} {t : Strand}
    (h : FanOut env limit elements next log (.going s) t) (hOpen : s.IsOpen) (w : World) :
      FanOut env limit elements next (log ++ s.resumeLog env limit w) (s.resume env limit w).1
        (t.resume env w).1
  | after {log : WindowLog} {r : Progress WindowState} {t : Strand}
    (h : FanOut env limit elements next log r t) (hOver : r.IsOver) (w : World) :
      FanOut env limit elements next log r (t.resume env w).1

section FanOut

variable {env : Environment} {limit : Nat} {elements : List Process}
variable {next : Except RunError (List Outcome) → Process}
variable {log : WindowLog} {r : Progress WindowState} {t : Strand}

/-- Whatever a fork becomes, something has happened in its window until then. -/
theorem Process.Becomes.exists_fanOut
    (h : (Process.fork (.window limit) elements next).Becomes env t) :
    ∃ log r, FanOut env limit elements next log r t := by
  induction h with
  | start w => exact ⟨_, _, .start w⟩
  | resume _ w ih =>
    obtain ⟨log, r, hRun⟩ := ih
    by_cases hOver : r.IsOver
    · exact ⟨log, r, hRun.after hOver w⟩
    · simp only [Progress.IsOver, not_forall, not_not] at hOver
      obtain ⟨s, rfl, hOpen⟩ := hOver
      exact ⟨_, _, hRun.resume hOpen w⟩

/-! ## What a strand is whose window has come so far -/

/-- What a fork is, or what it has gone on to, when its window has come so far. -/
inductive Strand.Follows (env : Environment) (limit : Nat)
    (next : Except RunError (List Outcome) → Process) :
    Progress WindowState → Strand → Prop
  | underWay {s : WindowState} (hOpen : s.IsOpen) :
    Follows env limit next (.going s) (.window limit s.delivered s.active s.queue next)
  | through {delivered : List Outcome} {t : Strand}
    (h : (next (.ok delivered.reverse)).Becomes env t) :
    Follows env limit next (.going ⟨delivered, [], []⟩) t
  | failed {e : RunError} {t : Strand} (h : (next (.error e)).Becomes env t) :
    Follows env limit next (.failed e) t
  | exhausted : Follows env limit next .exhausted .exhausted

theorem follows_joinWindow (r : Progress WindowState × World) :
    Strand.Follows env limit next r.1 (joinWindow env limit next r).1 := by
  obtain ⟨e | ⟨delivered, active, queue⟩ | _, w⟩ := r
  · exact .failed (.start w)
  · rw [joinWindow]
    split
    · rename_i hEmpty
      simp only [Bool.and_eq_true, List.isEmpty_iff] at hEmpty
      obtain ⟨rfl, rfl⟩ := hEmpty
      exact .through (.start w)
    · rename_i hLeft
      refine .underWay (s := ⟨delivered, active, queue⟩) ?_
      simp only [Bool.and_eq_true, List.isEmpty_iff] at hLeft
      exact Classical.not_and_iff_not_or_not.mp hLeft
  · exact .exhausted

theorem FanOut.follows (h : FanOut env limit elements next log r t) :
    Strand.Follows env limit next r t := by
  induction h with
  | start w =>
    rw [Process.start_fork_window]
    exact follows_joinWindow _
  | resume _ hOpen w ih =>
    cases ih with
    | underWay _ =>
      rw [Strand.resume_window]
      exact follows_joinWindow _
    | through _ => simp [WindowState.IsOpen] at hOpen
  | after _ hOver w ih =>
    cases ih with
    | underWay hOpen => exact absurd hOpen (hOver _ rfl)
    | through h => exact .through (h.resume w)
    | failed h => exact .failed (h.resume w)
    | exhausted =>
      rw [Strand.resume]
      exact .exhausted

/-- The log of a fork tells where its window is. -/
theorem FanOut.tells (h : FanOut env limit elements next log r t) :
    log.Explains env limit elements
      (fun log s => Tells env limit elements log s.delivered s.active s.queue) r := by
  induction h with
  | start w =>
    have hFilled := fill_tells elements w (tells_nil env limit elements)
    rwa [List.nil_append] at hFilled
  | resume _ _ w ih => exact Tells.resume ih w
  | after _ _ _ ih => exact ih

/-- What has happened in the window of a fork keeps to its order. -/
theorem FanOut.keeps (h : FanOut env limit elements next log r t) :
    log.Keeps env limit elements := by
  have hTells := h.tells
  cases r with
  | failed e => exact hTells.1
  | going s => exact hTells.keeps
  | exhausted => exact hTells.1

/-- If an element fails, the window is under way or was not followed, or it has failed, and then the
failure is that of the first element that fails. -/
theorem FanOut.fails {ends : Nat → Except RunError Outcome} {k : Nat} {e : RunError}
    (h : FanOut env limit elements next log r t) (hFirst : FirstFails ends k e)
    (hEnds : log.EndsBy ends) (hElement : k < elements.length) :
    (next (.error e)).Becomes env t ∨
      (∃ s, r = .going s ∧ t = .window limit s.delivered s.active s.queue next) ∨
      t = .exhausted ∧ OneStops env elements := by
  have hTells := h.tells
  cases h.follows with
  | underWay _ => exact .inr (.inl ⟨_, rfl, rfl⟩)
  | exhausted => exact .inr (.inr ⟨rfl, hTells.2⟩)
  | through _ =>
    -- All elements have ended well, that one too.
    obtain ⟨o, hOk⟩ := Tells.ended_of_through hTells hElement
    have hEnd := hEnds hOk
    rw [hFirst.fails] at hEnd
    cases hEnd
  | @failed e' t hFailed =>
    obtain ⟨hKeeps, hTurn⟩ := hTells
    have hLast : log.deliveries.length = k := by
      refine Nat.le_antisymm (hFirst.deliveries_le hEnds hKeeps)
        (Nat.le_of_not_lt fun hBefore => ?_)
      obtain ⟨o, ho⟩ := hFirst.before _ hBefore
      have hEnd := hEnds hTurn
      rw [ho] at hEnd
      cases hEnd
    have hEnd := hEnds hTurn
    rw [hLast, hFirst.fails] at hEnd
    cases hEnd
    exact .inl hFailed

/-! ## Forks of any width -/

/-- A fork with a window waits, or one of its elements has failed or was not followed,
or all have ended well. -/
theorem Process.Becomes.of_fork_window
    (h : (Process.fork (.window limit) elements next).Becomes env t) :
    (∃ s : WindowState, t = .window limit s.delivered s.active s.queue next) ∨
      OneStops env elements ∧ t = .exhausted ∨ (∃ os, (next (.ok os)).Becomes env t) ∨
      ∃ e, OneFails env elements e ∧ (next (.error e)).Becomes env t := by
  obtain ⟨log, r, hRun⟩ := h.exists_fanOut
  have hTells := hRun.tells
  cases hRun.follows with
  | underWay _ => exact .inl ⟨_, rfl⟩
  | exhausted => exact .inr (.inl ⟨hTells.2, rfl⟩)
  | through hNext => exact .inr (.inr (.inl ⟨_, hNext⟩))
  | failed hNext =>
    obtain ⟨p, hAt, hOwn⟩ := hTells.1.ends hTells.2
    exact .inr
      (.inr (.inr ⟨_, ⟨p, hTells.1.inOrder.subset (List.mem_of_getElem? hAt), hOwn⟩, hNext⟩))

variable {width : Width}

/-- A fork that has ended went on after the ends of its strands, or after the
failure of one of them. -/
theorem Process.Becomes.ended_of_fork {result : Except RunError Outcome}
    (h : (Process.fork width elements next).Becomes env (.ended result)) :
    (∃ os, (next (.ok os)).Becomes env (.ended result)) ∨
      ∃ e, OneFails env elements e ∧ (next (.error e)).Becomes env (.ended result) := by
  cases width with
  | all =>
    rcases h.of_fork_all with ⟨_, -, hWaits⟩ | ⟨-, hStops⟩ | hEnd
    · cases hWaits
    · cases hStops
    · exact hEnd
  | window limit =>
    rcases h.of_fork_window with ⟨_, hWaits⟩ | ⟨-, hStops⟩ | hEnd
    · cases hWaits
    · cases hStops
    · exact hEnd

/-- A fork that was not followed to its end stopped in one of its strands, or after them. -/
theorem Process.Becomes.stops_of_fork
    (h : (Process.fork width elements next).Becomes env .exhausted) :
    OneStops env elements ∨ ∃ r, (next r).Becomes env .exhausted := by
  cases width with
  | all =>
    rcases h.of_fork_all with ⟨_, -, hWaits⟩ | ⟨hStops, -⟩ | ⟨os, hNext⟩ | ⟨e, -, hNext⟩
    · cases hWaits
    · exact .inl hStops
    · exact .inr ⟨_, hNext⟩
    · exact .inr ⟨_, hNext⟩
  | window limit =>
    rcases h.of_fork_window with ⟨_, hWaits⟩ | ⟨hStops, -⟩ | ⟨os, hNext⟩ | ⟨e, -, hNext⟩
    · cases hWaits
    · exact .inl hStops
    · exact .inr ⟨_, hNext⟩
    · exact .inr ⟨_, hNext⟩

end FanOut

/-! ## Maps -/

/-- What a map does when its elements are through: it writes their results back. -/
def MapState.finish (site : Site) (m : MapState) (payload : Json) :
    Except RunError (List Outcome) → Process
  | .error e => site.fail payload e
  | .ok results =>
    match Path.set payload (.arr (results.map Outcome.payload)) m.array with
    | .ok p => .value p
    | .error e => site.fail payload (.path e)

section Map

variable {env : Environment} {limits : Limits} {ctx : Context} {fuel : Nat} {name : String}
  {m : MapState}
variable {payload : Json} {inputs : List Json} {site : Site} {f : Outcome → Process}

theorem MapState.transition_andThen (hInputs : m.inputs payload = .ok inputs) :
    (m.transition site limits payload).andThen f =
      .fork (.window (m.window limits inputs.length)) (inputs.map (m.body.process site)) fun r =>
        (m.finish site payload r).andThen f := by
  rw [MapState.transition, hInputs, Process.andThen]
  rfl

/-- A map whose elements are followed to their ends is followed as far as what comes after it. -/
theorem MapState.followed (hInputs : m.inputs payload = .ok inputs)
    (hElements : ∀ p ∈ inputs.map (m.body.process site), ¬ p.Becomes env .exhausted)
    (hAfter : ∀ o, ¬ (f o).Becomes env .exhausted) :
    ¬ ((m.transition site limits payload).andThen f).Becomes env .exhausted := by
  intro h
  rw [MapState.transition_andThen hInputs] at h
  rcases h.stops_of_fork with ⟨p, hMem, hStops⟩ | ⟨e | os, hNext⟩
  · exact hElements p hMem hStops
  · cases Process.becomes_done hNext
  · rw [MapState.finish] at hNext
    split at hNext
    · exact hAfter _ hNext
    · cases Process.becomes_done hNext

/-- If an element fails, the map fails as the first of those does that fail, unless
it is still under way. -/
theorem MapState.fails_of_first {limit : Nat} {elements : List Process} {log : WindowLog}
    {r : Progress WindowState} {t : Strand} {ends : Nat → Except RunError Outcome} {k : Nat}
    {e : RunError}
    (h : FanOut env limit elements (fun r => (m.finish site payload r).andThen f) log r t)
    (hEnds : log.EndsBy ends) (hElement : k < elements.length) (hFirst : FirstFails ends k e) :
    t = .ended (.error (.failedAt site.name payload e)) ∨
      (∃ s, r = .going s ∧ t = .window limit s.delivered s.active s.queue
        fun r => (m.finish site payload r).andThen f) ∨
      t = .exhausted ∧ OneStops env elements := by
  rcases h.fails hFirst hEnds hElement with hFailed | hOther
  · exact .inl (Process.becomes_done hFailed)
  · exact .inr hOther

/-- The elements of a map start in order, and at every moment no more than the limit are started and
not yet delivered. If elements fail, the map fails as the first of them does, and no element starts
that is the limit or further behind it. The map ends if all its elements do. -/
theorem MapState.fansOut (env : Environment) (limits : Limits) (ctx : Context) (fuel : Nat)
    (name : String) {m : MapState} {payload : Json} {inputs : List Json}
    (hInputs : m.inputs payload = .ok inputs) (f : Outcome → Process) :
    let site := ctx.siteAt limits fuel name
    let limit := max 1 ((m.maxConcurrency.or limits.mapConcurrency).getD inputs.length)
    let elements := inputs.map (m.body.process site)
    let next := fun r => (m.finish site payload r).andThen f
    let p := (m.transition site limits payload).andThen f
    p = .fork (.window limit) elements next ∧
    (∀ t, p.Becomes env t → ∃ log r, FanOut env limit elements next log r t) ∧
    (∀ log r t, FanOut env limit elements next log r t →
      (∀ moment : WindowLog, moment <+: log → moment.Orderly limit elements) ∧
      (∀ i result, .ended i result ∈ log →
        ∃ element, elements[i]? = some element ∧ element.Becomes env (.ended result)) ∧
      ∀ ends k e, log.EndsBy ends → k < inputs.length → FirstFails ends k e →
        log.starts.length ≤ k + limit ∧
        (t = .ended (.error (.failedAt name payload e)) ∨
          (∃ s, r = .going s ∧ t = .window limit s.delivered s.active s.queue next) ∨
          t = .exhausted ∧ ∃ element ∈ elements, element.Becomes env .exhausted)) ∧
    ((∀ element ∈ elements, ¬ element.Becomes env .exhausted) →
      (∀ o, (f o).Regular ∧ ¬ (f o).Becomes env .exhausted) → ∀ w, ∃ steps result w' log r,
        (p.start env w).1.settle env steps (p.start env w).2 = some (result, w') ∧
        FanOut env limit elements next log r (.ended result) ∧
        ∀ ends k e, log.EndsBy ends → k < inputs.length → FirstFails ends k e →
          result = .error (.failedAt name payload e)) := by
  intro site limit elements next p
  have hFork : p = .fork (.window limit) elements next := MapState.transition_andThen hInputs
  have hMoments : ∀ t, p.Becomes env t → ∃ log r, FanOut env limit elements next log r t :=
    fun t ht => Process.Becomes.exists_fanOut (hFork ▸ ht)
  have hCount : elements.length = inputs.length := List.length_map _
  refine ⟨hFork, hMoments, fun log r t hRun =>
    ⟨fun _ hMoment => hRun.keeps.orderly hMoment, ?_, ?_⟩, ?_⟩
  · intro i result hEnded
    obtain ⟨element, hAt, hOwn⟩ := hRun.keeps.ends hEnded
    obtain ⟨rest, hRest⟩ := hRun.keeps.inOrder
    refine ⟨element, ?_, hOwn⟩
    rw [← hRest, List.getElem?_append_left (List.getElem?_eq_some_iff.mp hAt).1]
    exact hAt
  · intro ends k e hEnds hElement hFirst
    exact ⟨hFirst.starts_le hEnds hRun.keeps,
      MapState.fails_of_first hRun hEnds (hCount ▸ hElement) hFirst⟩
  · intro hElements hAfter w
    have hRegular : p.Regular := Process.Regular.andThen (fun o => (hAfter o).1)
      (MapState.regular_transition (Context.regular_siteAt ctx limits fuel name) m payload)
    have hFollowed : ¬ p.Becomes env .exhausted :=
      MapState.followed hInputs hElements fun o => (hAfter o).2
    obtain ⟨steps, result, w', hSettle⟩ := Process.exists_settle hRegular hFollowed w
    obtain ⟨log, r, hRun⟩ := hMoments _ ((Process.Becomes.start w).settle hSettle)
    refine ⟨steps, result, w', log, r, hSettle, hRun, fun ends k e hEnds hElement hFirst => ?_⟩
    have hCases := MapState.fails_of_first hRun hEnds (hCount ▸ hElement) hFirst
    rcases hCases with hFailed | ⟨s, -, hOpen⟩ | ⟨hOut, -⟩
    · exact Strand.ended.inj hFailed
    · cases hOpen
    · cases hOut

end Map

/-- A map over `xs` that takes two elements at a time. -/
def twoAtATime : MapState := ⟨.activity "f", "xs", none, some 2, none⟩

/-- Three elements for the map. -/
def threeElements : Json := .obj [("xs", .arr [.bool true, .bool false, .null])]

/-- The map as a workflow. -/
def twoAtATimeState : Workflow := ⟨"m", [("m", .map twoAtATime)]⟩

/-- Fails soon for the second element, and answers slowly for the others. -/
def secondFails : Caller := fun _ r =>
  match r.payload with
  | .bool false => ⟨.error (.unregistered "g"), 1⟩
  | _ => ⟨.ok r.payload, 5⟩

/-- How the elements end. -/
def secondFailsEnds : Nat → Except RunError Outcome
  | 0 => .ok ⟨.bool true, []⟩
  | 1 => .error (.activity (.unregistered "g"))
  | _ => .ok ⟨.null, []⟩

theorem MapState.fansOut_secondFails :
    twoAtATime.inputs threeElements = .ok [.bool true, .bool false, .null] ∧
    let p := twoAtATimeState.process ⟨8, none, none⟩ 5 "r" threeElements
    ∃ steps w', (p.start ⟨secondFails, none⟩ ⟨0, []⟩).1.settle ⟨secondFails, none⟩ steps
      (p.start ⟨secondFails, none⟩ ⟨0, []⟩).2 =
        some (.error (.failedAt "m" threeElements (.activity (.unregistered "g"))), w') := by
  have hInputs : twoAtATime.inputs threeElements = .ok [.bool true, .bool false, .null] := rfl
  have hAll :=
    MapState.fansOut ⟨secondFails, none⟩ ⟨8, none, none⟩ (.top "r") 4 "m" hInputs fun o =>
      .done (.ok ⟨o.payload, ["m"]⟩)
  obtain ⟨-, -, hLogs, hEnds⟩ := hAll
  have hFollowed : ∀ element ∈ [Json.bool true, .bool false, .null].map
      (twoAtATime.body.process ((Context.top "r").siteAt ⟨8, none, none⟩ 4 "m")),
      ¬ element.Becomes ⟨secondFails, none⟩ .exhausted := by
    intro element hMem
    obtain ⟨input, -, rfl⟩ := List.mem_map.mp hMem
    exact Process.followed_single _
  have hAfter : ∀ o : Outcome, (Process.done (.ok ⟨o.payload, ["m"]⟩)).Regular ∧
      ¬ (Process.done (.ok ⟨o.payload, ["m"]⟩)).Becomes ⟨secondFails, none⟩ .exhausted := by
    refine fun o => ⟨by simp [Process.Regular], fun h => ?_⟩
    cases Process.becomes_done h
  obtain ⟨steps, result, w', log, r, hSettle, hRun, hFails⟩ := hEnds hFollowed hAfter ⟨0, []⟩
  have hLog : log.EndsBy secondFailsEnds := by
    intro i result hEnded
    obtain ⟨element, hAt, hBecomes⟩ := (hLogs _ _ _ hRun).2.1 i result hEnded
    match i with
    | 0 | 1 | 2 =>
      cases hAt
      obtain ⟨w, hResult⟩ := Process.ends_single hBecomes
      exact hResult
    | i + 3 => cases hAt
  have hFirst : FirstFails secondFailsEnds 1 (.activity (.unregistered "g")) :=
    ⟨rfl, fun j hj => ⟨⟨.bool true, []⟩, by rw [Nat.lt_one_iff.mp hj]; rfl⟩⟩
  refine ⟨hInputs, steps, w', ?_⟩
  rw [← hFails _ 1 _ hLog (by decide) hFirst]
  exact hSettle

end Orchestration
