import Orchestration.Proofs.Run.AtRest

/-!
# Logs of windows

The log of a window tells, event by event, which elements start, how they end and what is delivered.

* `WindowLog.Keeps`: the order of events that a window keeps to, and `WindowLog.Keeps.orderly`, what
  follows at every moment: elements start and are delivered in order, and no more of them than the
  limit are started and not yet delivered.
* `fillLog`, `WindowState.resumeLog`: what happens while a window starts and goes on.
* `fill_tells`, `Tells.resume`: each step of a window keeps to that order, and
  its log tells where it is.
* `FirstFails.starts_le`: no element starts that is the limit or further behind the first that
  fails.
-/

namespace Orchestration

/-! ## Logs -/

/-- Something that happens in a window. -/
inductive WindowEvent where
  | started (element : Process)
  /-- The element in this place, in the order in which elements started, came to its end. -/
  | ended (place : Nat) (result : Except RunError Outcome)
  | delivered (outcome : Outcome)

/-- What has happened in a window, the first event first. -/
abbrev WindowLog := List WindowEvent

namespace WindowLog

def starts (log : WindowLog) : List Process :=
  log.filterMap fun
    | .started element => some element
    | .ended _ _ | .delivered _ => none

def deliveries (log : WindowLog) : List Outcome :=
  log.filterMap fun
    | .delivered outcome => some outcome
    | .started _ | .ended _ _ => none

/-- The log of a window over these elements: the next one starts while fewer than the limit are
started and not delivered, one that has started ends once, and what is delivered is the outcome of
the element whose turn it is. -/
inductive Keeps (env : Environment) (limit : Nat) (elements : List Process) : WindowLog → Prop
  | nil : Keeps env limit elements []
  | started {log : WindowLog} {element : Process} {rest : List Process}
    (h : Keeps env limit elements log) (hNext : log.starts ++ element :: rest = elements)
    (hRoom : log.starts.length < log.deliveries.length + limit) :
    Keeps env limit elements (log ++ [.started element])
  | ended {log : WindowLog} {place : Nat} {element : Process} {result : Except RunError Outcome}
    (h : Keeps env limit elements log) (hStarted : log.starts[place]? = some element)
    (hOwn : element.Becomes env (.ended result)) (hOnce : ∀ r, .ended place r ∉ log) :
    Keeps env limit elements (log ++ [.ended place result])
  | delivered {log : WindowLog} {outcome : Outcome} (h : Keeps env limit elements log)
    (hTurn : .ended log.deliveries.length (.ok outcome) ∈ log) :
    Keeps env limit elements (log ++ [.delivered outcome])

/-- Elements start and are delivered in order, and only so many are started
and not yet delivered. -/
structure Orderly (limit : Nat) (elements : List Process) (log : WindowLog) : Prop where
  /-- No element starts before those in front of it, or twice. -/
  starts : log.starts <+: elements
  within : log.starts.length ≤ log.deliveries.length + limit
  /-- What is delivered is the outcome of the element whose turn it is. -/
  delivers : ∀ {i : Nat} {o : Outcome}, log.deliveries[i]? = some o → .ended i (.ok o) ∈ log

variable {env : Environment} {limit : Nat} {elements : List Process} {log log' : WindowLog}

@[simp] theorem starts_nil : starts [] = [] := rfl

@[simp] theorem deliveries_nil : deliveries [] = [] := rfl

@[simp] theorem starts_append (log log' : WindowLog) :
    starts (log ++ log') = log.starts ++ log'.starts :=
  List.filterMap_append

@[simp] theorem deliveries_append (log log' : WindowLog) :
    deliveries (log ++ log') = log.deliveries ++ log'.deliveries :=
  List.filterMap_append

@[simp] theorem starts_started (element : Process) (log : WindowLog) :
    starts (.started element :: log) = element :: log.starts := rfl

@[simp] theorem starts_ended (place : Nat) (result : Except RunError Outcome) (log : WindowLog) :
    starts (.ended place result :: log) = log.starts := rfl

@[simp] theorem starts_delivered (outcome : Outcome) (log : WindowLog) :
    starts (.delivered outcome :: log) = log.starts := rfl

@[simp] theorem deliveries_started (element : Process) (log : WindowLog) :
    deliveries (.started element :: log) = log.deliveries := rfl

@[simp] theorem deliveries_ended (place : Nat) (result : Except RunError Outcome)
    (log : WindowLog) :
    deliveries (.ended place result :: log) = log.deliveries := rfl

@[simp] theorem deliveries_delivered (outcome : Outcome) (log : WindowLog) :
    deliveries (.delivered outcome :: log) = outcome :: log.deliveries := rfl

namespace Keeps

/-- What a window keeps to, it has kept to at every moment. -/
theorem of_prefix (h : Keeps env limit elements log) (hPrefix : log' <+: log) :
    Keeps env limit elements log' := by
  induction h with
  | nil =>
    rw [List.prefix_nil.mp hPrefix]
    exact .nil
  | started h hNext hRoom ih =>
    rcases List.prefix_concat_iff.mp hPrefix with rfl | hBefore
    · exact .started h hNext hRoom
    · exact ih hBefore
  | ended h hStarted hOwn hOnce ih =>
    rcases List.prefix_concat_iff.mp hPrefix with rfl | hBefore
    · exact .ended h hStarted hOwn hOnce
    · exact ih hBefore
  | delivered h hTurn ih =>
    rcases List.prefix_concat_iff.mp hPrefix with rfl | hBefore
    · exact .delivered h hTurn
    · exact ih hBefore

/-- Elements start in order, each at most once. -/
theorem inOrder (h : Keeps env limit elements log) : log.starts <+: elements := by
  induction h with
  | nil => exact List.nil_prefix
  | @started log element rest _ hNext _ _ =>
    refine ⟨rest, ?_⟩
    rw [starts_append, List.append_assoc]
    exact hNext
  | ended _ _ _ _ ih | delivered _ _ ih => simpa using ih

/-- No more elements than the limit are started and not yet delivered. -/
theorem within (h : Keeps env limit elements log) :
    log.starts.length ≤ log.deliveries.length + limit := by
  induction h with
  | nil => exact Nat.zero_le _
  | started _ _ hRoom _ =>
    simp only [starts_append, deliveries_append, starts_started, deliveries_started, starts_nil,
      deliveries_nil, List.length_append, List.length_cons, List.length_nil, Nat.add_zero]
    omega
  | ended _ _ _ _ ih => simpa using ih
  | delivered _ _ ih =>
    simp only [starts_append, deliveries_append, starts_delivered, deliveries_delivered, starts_nil,
      deliveries_nil, List.length_append, List.length_cons, List.length_nil, Nat.add_zero]
    omega

/-- What is delivered are the outcomes of the elements, in order. -/
theorem delivers (h : Keeps env limit elements log) :
    ∀ {i : Nat} {o : Outcome}, log.deliveries[i]? = some o → .ended i (.ok o) ∈ log := by
  induction h with
  | nil => simp
  | started _ _ _ ih | ended _ _ _ _ ih =>
    intro i o hAt
    simp only [deliveries_append, deliveries_started, deliveries_ended, deliveries_nil,
      List.append_nil] at hAt
    exact List.mem_append_left _ (ih hAt)
  | @delivered log outcome _ hTurn ih =>
    intro i o hAt
    rw [deliveries_append, deliveries_delivered, deliveries_nil, getElem?_snoc] at hAt
    split at hAt
    · rename_i hLast
      cases hAt
      rw [hLast]
      exact List.mem_append_left _ hTurn
    · exact List.mem_append_left _ (ih hAt)

/-- At every moment a window is in order. -/
theorem orderly (h : Keeps env limit elements log) {moment : WindowLog} (hMoment : moment <+: log) :
    moment.Orderly limit elements :=
  have hKeeps := h.of_prefix hMoment
  ⟨hKeeps.inOrder, hKeeps.within, hKeeps.delivers⟩

/-- An element that has ended was started, and it ended as it may end. -/
theorem ends (h : Keeps env limit elements log) {i : Nat} {result : Except RunError Outcome}
    (hEnded : .ended i result ∈ log) :
    ∃ element, log.starts[i]? = some element ∧ element.Becomes env (.ended result) := by
  have later : ∀ {log log' : WindowLog}, (∃ element, log.starts[i]? = some element ∧
      element.Becomes env (.ended result)) → ∃ element, (starts (log ++ log'))[i]? = some element ∧
        element.Becomes env (.ended result) := by
    rintro log log' ⟨element, hAt, hOwn⟩
    refine ⟨element, ?_, hOwn⟩
    rw [starts_append, List.getElem?_append_left (List.getElem?_eq_some_iff.mp hAt).1]
    exact hAt
  induction h with
  | nil => cases hEnded
  | started _ _ _ ih | delivered _ _ ih =>
    exact later (ih (by simpa using hEnded))
  | @ended log place element result' _ hStarted hOwn _ ih =>
    rcases List.mem_append.mp hEnded with hOld | hNew
    · exact later (ih hOld)
    · cases List.mem_singleton.mp hNew
      exact later ⟨element, hStarted, hOwn⟩

end Keeps

end WindowLog

/-! ## The log of a window that goes on -/

/-- The end of the strand in a place, if it has ended. -/
def endLog (place : Nat) : Strand → WindowLog
  | .ended result => [.ended place result]
  | _ => []

/-- What is delivered of strands. -/
def deliverLog : List Strand → WindowLog
  | .ended (.ok o) :: rest => .delivered o :: deliverLog rest
  | _ => []

/-- What happens when a strand takes its place in a window. -/
def settleLog (place : Nat) (placed : Strand → List Strand) : Strand → WindowLog
  | .exhausted => []
  | s => endLog place s ++ deliverLog (placed s)

/-- What happens next to strands that are under way. -/
def Progress.log {α : Type} : Progress α × World → (α → World → WindowLog) → WindowLog
  | (.going a, w), next => next a w
  | (.failed _, _), _ | (.exhausted, _), _ => []

/-- What happens while queued processes start. -/
def fillLog (env : Environment) (limit : Nat) (delivered : List Outcome) (active : List Strand) :
    List Process → World → WindowLog
  | [], _ => []
  | p :: rest, w =>
    if active.length < limit then
      .started p ::
        (settleLog (delivered.length + active.length) (fun s => active ++ [s]) (p.start env w).1 ++
          Progress.log (settleIn delivered (fun s => active ++ [s]) (p.start env w)) fun s w =>
          fillLog env limit s.1 s.2 rest w)
    else []

/-- What happens while woken strands go on. -/
def wakeLog (before : Nat) (delivered : List Outcome) (active : List Strand) :
    List Wakeup → World → WindowLog
  | [], _ => []
  | wake :: rest, w =>
    let place := wake.place - (delivered.length - before)
    settleLog (delivered.length + place) (active.set place) (wake.go w).1 ++
      Progress.log (settleIn delivered (active.set place) (wake.go w)) fun s w =>
        wakeLog before s.1 s.2 rest w

namespace WindowState

/-- Lets the strands of a window go on that have an answer. -/
def wake (env : Environment) (s : WindowState) (w : World) :
    Progress (List Outcome × List Strand) × World :=
  runWakeups s.delivered.length s.delivered s.active (Wakeup.sort (wakeups env w.now 0 s.active)) w

/-- Lets a window go on: the strands that have an answer, then what is queued. -/
def resume (env : Environment) (limit : Nat) (s : WindowState) (w : World) :
    Progress WindowState × World :=
  Progress.andThen (s.wake env w) fun state w => fill env limit state.1 state.2 s.queue w

/-- What happens when a window goes on. -/
def resumeLog (env : Environment) (limit : Nat) (s : WindowState) (w : World) : WindowLog :=
  wakeLog s.delivered.length s.delivered s.active (Wakeup.sort (wakeups env w.now 0 s.active)) w ++
    Progress.log (s.wake env w) fun state w => fillLog env limit state.1 state.2 s.queue w

/-- Something is under way or queued. -/
def IsOpen (s : WindowState) : Prop := s.active ≠ [] ∨ s.queue ≠ []

end WindowState

/-! ## The log tells where the window is -/

section Tells

variable {env : Environment} {limit : Nat} {elements : List Process}

/-- A log of a window that is under way: what was started, delivered and has ended until now. -/
structure Tells (env : Environment) (limit : Nat) (elements : List Process) (log : WindowLog)
    (delivered : List Outcome) (active : List Strand) (queue : List Process) : Prop where
  keeps : log.Keeps env limit elements
  queue : log.starts ++ queue = elements
  count : log.starts.length = delivered.length + active.length
  deliveries : log.deliveries = delivered.reverse
  becomes : ∀ {i : Nat} {s : Strand}, active[i]? = some s →
    ∃ p, log.starts[delivered.length + i]? = some p ∧ p.Becomes env s
  ended : ∀ {i : Nat} {result : Except RunError Outcome},
    .ended (delivered.length + i) result ∈ log ↔ active[i]? = some (.ended result)

/-- A log of a window that has failed: it is the turn of the element that failed. -/
def Blames (env : Environment) (limit : Nat) (elements : List Process) (log : WindowLog)
    (e : RunError) : Prop :=
  log.Keeps env limit elements ∧ .ended log.deliveries.length (.error e) ∈ log

/-- A log of a window of which one element was not followed any further. -/
def Abandons (env : Environment) (limit : Nat) (elements : List Process) (log : WindowLog) : Prop :=
  log.Keeps env limit elements ∧ OneStops env elements

/-- The log is that of strands that have come so far: it tells where those are that go on. -/
def WindowLog.Explains {α : Type} (env : Environment) (limit : Nat) (elements : List Process)
    (M : WindowLog → α → Prop) (log : WindowLog) : Progress α → Prop
  | .failed e => Blames env limit elements log e
  | .exhausted => Abandons env limit elements log
  | .going a => M log a

/-- Goes on with what is under way, and with its log. -/
theorem WindowLog.Explains.andThen {α β : Type} {M : WindowLog → α → Prop}
    {N : WindowLog → β → Prop} {log : WindowLog} {r : Progress α × World}
    {f : α → World → Progress β × World} {g : α → World → WindowLog}
    (h : log.Explains env limit elements M r.1)
    (hf : ∀ a w, r = (.going a, w) → M log a →
      WindowLog.Explains env limit elements N (log ++ g a w) (f a w).1) :
    WindowLog.Explains env limit elements N (log ++ Progress.log r g) (Progress.andThen r f).1 := by
  obtain ⟨e | a | _, w⟩ := r
  · rw [Progress.log, List.append_nil]
    exact h
  · exact hf a w rfl h
  · rw [Progress.log, List.append_nil]
    exact h

@[simp] theorem starts_endLog (place : Nat) (s : Strand) : (endLog place s).starts = [] := by
  cases s <;> rfl

@[simp] theorem deliveries_endLog (place : Nat) (s : Strand) :
    (endLog place s).deliveries = [] := by
  cases s <;> rfl

@[simp] theorem mem_endLog {place i : Nat} {s : Strand} {result : Except RunError Outcome} :
    .ended i result ∈ endLog place s ↔ i = place ∧ s = .ended result := by
  cases s <;> simp [endLog, eq_comm]

variable {log : WindowLog} {delivered : List Outcome} {active : List Strand} {queue : List Process}

theorem tells_nil (env : Environment) (limit : Nat) (elements : List Process) :
    Tells env limit elements [] [] [] elements :=
  ⟨.nil, rfl, rfl, rfl, by simp, by simp⟩

/-- A strand that has started or gone on may have ended, for the first time. -/
theorem WindowLog.Keeps.endLog (h : log.Keeps env limit elements) {place : Nat} {p : Process}
    {s : Strand} (hStarted : log.starts[place]? = some p) (hOwn : p.Becomes env s)
    (hOnce : ∀ r, .ended place r ∉ log) :
    (log ++ endLog place s).Keeps env limit elements := by
  cases s with
  | ended result => exact .ended h hStarted hOwn hOnce
  | _ => simpa [Orchestration.endLog] using h

/-- The next queued process starts where there is room. -/
theorem Tells.start {p : Process} {rest : List Process} {s : Strand}
    (h : Tells env limit elements log delivered active (p :: rest)) (hRoom : active.length < limit)
    (hOwn : p.Becomes env s) :
    Tells env limit elements (log ++ [.started p] ++ endLog (delivered.length + active.length) s)
      delivered (active ++ [s]) rest := by
  have hStarts : (log ++ [WindowEvent.started p]).starts = log.starts ++ [p] := by simp
  have hKeeps : WindowLog.Keeps env limit elements (log ++ [.started p]) := by
    refine .started h.keeps h.queue ?_
    rw [h.count, h.deliveries, List.length_reverse]
    omega
  have hPlace : (log ++ [WindowEvent.started p]).starts[delivered.length + active.length]? =
      some p := by
    rw [hStarts, ← h.count, List.getElem?_concat_length]
  have hNone : ∀ r, .ended (delivered.length + active.length) r ∉ log := fun r hr => by
    simpa using h.ended.mp hr
  refine ⟨hKeeps.endLog hPlace hOwn (by simpa using hNone), ?_, ?_, ?_, ?_, ?_⟩
  · simpa using h.queue
  · simp [h.count, Nat.add_assoc]
  · simp [h.deliveries]
  · intro i t hAt
    rw [WindowLog.starts_append, starts_endLog, List.append_nil]
    rw [getElem?_snoc] at hAt
    split at hAt
    · rename_i hLast
      cases hAt
      exact ⟨p, hLast ▸ hPlace, hOwn⟩
    · obtain ⟨q, hq, hBecomes⟩ := h.becomes hAt
      refine ⟨q, ?_, hBecomes⟩
      rw [hStarts, List.getElem?_append_left (List.getElem?_eq_some_iff.mp hq).1]
      exact hq
  · intro i result
    simp only [List.mem_append, List.mem_singleton, reduceCtorEq, or_false, mem_endLog, h.ended,
      getElem?_snoc, Nat.add_left_cancel_iff]
    by_cases hLast : i = active.length
    · simp [hLast]
    · simp [hLast]

/-- A strand that waits goes on at its place. -/
theorem Tells.go {i : Nat} {s s' : Strand} (h : Tells env limit elements log delivered active queue)
    (hAt : active[i]? = some s) (hWaits : ∀ r, s ≠ .ended r)
    (hOwn : ∀ p : Process, p.Becomes env s → p.Becomes env s') :
    Tells env limit elements (log ++ endLog (delivered.length + i) s') delivered (active.set i s')
      queue := by
  obtain ⟨p, hp, hBecomes⟩ := h.becomes hAt
  have hi : i < active.length := (List.getElem?_eq_some_iff.mp hAt).1
  have hNone : ∀ r, .ended (delivered.length + i) r ∉ log := fun r hr =>
    hWaits r (Option.some.inj (hAt.symm.trans (h.ended.mp hr)))
  refine ⟨h.keeps.endLog hp (hOwn p hBecomes) hNone, ?_, ?_, ?_, ?_, ?_⟩
  · simpa using h.queue
  · simp [h.count]
  · simp [h.deliveries]
  · intro j t hj
    rw [WindowLog.starts_append, starts_endLog, List.append_nil]
    rw [List.getElem?_set] at hj
    split at hj
    · rename_i hSame
      subst hSame
      cases hj
      exact ⟨p, hp, hOwn p hBecomes⟩
    · exact h.becomes hj
  · intro j result
    rw [List.mem_append, mem_endLog, h.ended, List.getElem?_set, Nat.add_left_cancel_iff]
    by_cases hSame : i = j
    · subst hSame
      have hNot : active[i] ≠ .ended result := fun hEq =>
        hWaits result (Option.some.inj (hAt.symm.trans (hEq ▸ List.getElem?_eq_getElem hi)))
      simp [hi, hNot]
    · simp [hSame, Ne.symm hSame]

/-- It is the turn of the element whose strand is the first of those under way. -/
theorem Tells.turn {s : Strand} {rest : List Strand}
    (h : Tells env limit elements log delivered (s :: rest) queue)
    {result : Except RunError Outcome} :
    .ended log.deliveries.length result ∈ log ↔ s = .ended result := by
  rw [h.deliveries, List.length_reverse, ← Nat.add_zero delivered.length, h.ended]
  simp

/-- A strand that has ended well at its turn is delivered. -/
theorem Tells.deliverHead {o : Outcome} {rest : List Strand}
    (h : Tells env limit elements log delivered (.ended (.ok o) :: rest) queue) :
    Tells env limit elements (log ++ [.delivered o]) (o :: delivered) rest queue := by
  refine ⟨.delivered h.keeps (h.turn.mpr rfl), ?_, ?_, ?_, ?_, ?_⟩
  · simpa using h.queue
  · simp [h.count]
    omega
  · simp [h.deliveries]
  · intro i t hAt
    obtain ⟨p, hp, hBecomes⟩ := h.becomes (i := i + 1) (by simpa using hAt)
    refine ⟨p, ?_, hBecomes⟩
    rw [WindowLog.starts_append, WindowLog.starts_delivered, WindowLog.starts_nil, List.append_nil,
      List.length_cons, Nat.add_right_comm]
    exact hp
  · intro i result
    have hOld : .ended (delivered.length + (i + 1)) result ∈ log ↔
        (Strand.ended (.ok o) :: rest)[i + 1]? = some (.ended result) := h.ended
    rw [← Nat.add_assoc, Nat.add_right_comm] at hOld
    simpa using hOld

/-- Delivery takes its turn. -/
theorem Tells.deliver (h : Tells env limit elements log delivered active queue) :
    WindowLog.Explains env limit elements (fun log s => Tells env limit elements log s.1 s.2 queue)
      (log ++ deliverLog active) (Orchestration.deliver delivered active) := by
  induction active generalizing log delivered with
  | nil => simpa [deliverLog, Orchestration.deliver, WindowLog.Explains] using h
  | cons s rest ih =>
    unfold Orchestration.deliver
    split
    · rename_i o rest' hHead
      cases hHead
      have hRest := ih h.deliverHead
      rwa [List.append_assoc] at hRest
    · rename_i e rest' hHead
      cases hHead
      have hNone : deliverLog (.ended (.error e) :: rest) = [] := rfl
      rw [hNone, List.append_nil]
      exact ⟨h.keeps, h.turn.mpr rfl⟩
    · rename_i hOk hError
      have hNone : deliverLog (s :: rest) = [] := by
        unfold deliverLog
        split
        · rename_i hHead
          exact absurd hHead (hOk _ _)
        · rfl
      rw [hNone, List.append_nil]
      exact h

/-- A strand takes its place among the others, and then delivery takes its turn. -/
theorem Tells.settleIn {place : Nat} (placed : Strand → List Strand) {r : Strand × World}
    (hKeeps : log.Keeps env limit elements)
    (hExhausted : r.1 = .exhausted → OneStops env elements)
    (h : Tells env limit elements (log ++ endLog place r.1) delivered (placed r.1) queue) :
    WindowLog.Explains env limit elements (fun log s => Tells env limit elements log s.1 s.2 queue)
      (log ++ settleLog place placed r.1) (Orchestration.settleIn delivered placed r).1 := by
  obtain ⟨s, w⟩ := r
  by_cases hRun : s = .exhausted
  · subst hRun
    simpa [settleLog, Orchestration.settleIn, WindowLog.Explains, Abandons]
      using ⟨hKeeps, hExhausted rfl⟩
  · have hSettle : Orchestration.settleIn delivered placed (s, w) =
        (Orchestration.deliver delivered (placed s), w) := by
      cases s <;> first | rfl | exact absurd rfl hRun
    have hLog : settleLog place placed s = endLog place s ++ deliverLog (placed s) := by
      cases s <;> first | rfl | exact absurd rfl hRun
    rw [hSettle, hLog, ← List.append_assoc]
    exact h.deliver

theorem mem_of_starts_getElem? (hQueue : log.starts ++ queue = elements) {i : Nat} {p : Process}
    (hAt : log.starts[i]? = some p) : p ∈ elements :=
  hQueue ▸ List.mem_append_left _ (List.mem_of_getElem? hAt)

/-- Processes start while there is room, as the log says. -/
theorem fill_tells (queue : List Process) :
    ∀ {log : WindowLog} {delivered : List Outcome} {active : List Strand} (w : World),
      Tells env limit elements log delivered active queue →
      WindowLog.Explains env limit elements
        (fun log s => Tells env limit elements log s.delivered s.active s.queue)
        (log ++ fillLog env limit delivered active queue w)
          (fill env limit delivered active queue w).1 := by
  induction queue with
  | nil =>
    intro log delivered active w h
    simpa [fill, fillLog, WindowLog.Explains] using h
  | cons p rest ih =>
    intro log delivered active w h
    rw [fill_cons, fillLog]
    split
    · rename_i hRoom
      have hStart := h.start hRoom (.start w)
      have hKeeps : WindowLog.Keeps env limit elements (log ++ [.started p]) :=
        hStart.keeps.of_prefix (List.prefix_append _ _)
      have hMem : p ∈ elements := h.queue ▸ List.mem_append_right _ List.mem_cons_self
      have hSettled := Tells.settleIn (fun s => active ++ [s]) (r := p.start env w) hKeeps
        (fun hEq => ⟨p, hMem, hEq ▸ .start w⟩) hStart
      have hAll := hSettled.andThen fun s w' _ hs => ih w' hs
      simpa only [List.append_assoc, List.cons_append, List.nil_append] using hAll
    · simpa [WindowLog.Explains] using h

/-- Woken strands go on one after the other, as the log says. -/
theorem runWakeups_tells {now before : Nat} {woken : List Strand} (ws : List Wakeup) :
    ∀ {log : WindowLog} {delivered : List Outcome} {active : List Strand} (w : World),
      Tells env limit elements log delivered active queue →
      WakeupsFit env now before woken ws delivered active →
      WindowLog.Explains env limit elements
        (fun log s => Tells env limit elements log s.1 s.2 queue)
          (log ++ wakeLog before delivered active ws w)
            (runWakeups before delivered active ws w).1 := by
  induction ws with
  | nil =>
    intro log delivered active w h _
    simpa [runWakeups, wakeLog, WindowLog.Explains] using h
  | cons wake rest ih =>
    intro log delivered active w h hFit
    obtain ⟨s, -, hDue, hGo, -, hAt⟩ := hFit.fits wake List.mem_cons_self
    have hWaits : ∀ r, s ≠ .ended r := by
      rintro r rfl
      simp [Strand.firstTicket] at hDue
    have hResume : wake.go w = s.resume env w := by rw [hGo]
    have hNext := h.go hAt hWaits fun p hp => hResume ▸ hp.resume w
    obtain ⟨p, hp, hBecomes⟩ := h.becomes hAt
    have hSettled := Tells.settleIn (active.set (wake.place - (delivered.length - before)))
      (r := wake.go w) h.keeps
      (fun hEq => ⟨p, mem_of_starts_getElem? h.queue hp, hEq ▸ hResume ▸ hBecomes.resume w⟩) hNext
    rw [runWakeups_cons, wakeLog, ← List.append_assoc]
    refine hSettled.andThen fun s' w' hOne hs' => ih w' hs' ?_
    rw [hResume] at hOne
    exact hFit.rest hOne

/-- A window goes on as the log says. -/
theorem Tells.resume {s : WindowState}
    (h : Tells env limit elements log s.delivered s.active s.queue) (w : World) :
    WindowLog.Explains env limit elements
      (fun log s => Tells env limit elements log s.delivered s.active s.queue)
      (log ++ s.resumeLog env limit w) (s.resume env limit w).1 := by
  have hWoken := runWakeups_tells _ w h (wakeupsFit_sort env w.now s.delivered s.active)
  have hAll := hWoken.andThen fun state w' _ hState => fill_tells s.queue w' hState
  rw [WindowState.resumeLog, ← List.append_assoc]
  exact hAll

/-! ## The first failure -/

/-- The elements of a window that is through have all ended well. -/
theorem Tells.ended_of_through {delivered : List Outcome}
    (h : Tells env limit elements log delivered [] []) {i : Nat} (hi : i < elements.length) :
    ∃ o, .ended i (.ok o) ∈ log := by
  have hCount : log.deliveries.length = elements.length := by
    rw [h.deliveries, List.length_reverse, ← h.queue, List.append_nil, h.count, List.length_nil,
      Nat.add_zero]
  exact ⟨_, h.keeps.delivers (List.getElem?_eq_getElem (hCount ▸ hi))⟩

/-- Elements have ended as they are said to end. -/
def WindowLog.EndsBy (log : WindowLog) (ends : Nat → Except RunError Outcome) : Prop :=
  ∀ {i : Nat} {result : Except RunError Outcome}, .ended i result ∈ log → result = ends i

/-- The first of the elements to fail, in their order, fails with this. -/
structure FirstFails (ends : Nat → Except RunError Outcome) (k : Nat) (e : RunError) : Prop where
  fails : ends k = .error e
  before : ∀ j < k, ∃ o, ends j = .ok o

variable {ends : Nat → Except RunError Outcome} {k : Nat} {e : RunError}

/-- Nothing is delivered from the first element on that fails. -/
theorem FirstFails.deliveries_le (hFirst : FirstFails ends k e) (hEnds : log.EndsBy ends)
    (h : log.Keeps env limit elements) : log.deliveries.length ≤ k := by
  by_contra hMore
  have hDelivered := h.delivers (List.getElem?_eq_getElem (Nat.lt_of_not_le hMore))
  have hOk := hEnds hDelivered
  rw [hFirst.fails] at hOk
  cases hOk

/-- No element starts that is the limit or further behind the first that fails. -/
theorem FirstFails.starts_le (hFirst : FirstFails ends k e) (hEnds : log.EndsBy ends)
    (h : log.Keeps env limit elements) : log.starts.length ≤ k + limit :=
  Nat.le_trans h.within (Nat.add_le_add_right (hFirst.deliveries_le hEnds h) limit)

end Tells

end Orchestration
