import Orchestration.Proofs.Run.Doomed

/-!
# Two runs in step

Two runs of one process, where the first is cut off: by a limit on the depth of nesting, in the
process, or by a limit on what calls take, in the environment. As long as nothing is cut off the two
go in step, with the same calls at the same times. Once something is cut off the first run is
doomed, and nothing more is said of the second.

* `Environment.Extends`: what the first environment answers well, the second answers alike.
* `Strand.InStep`, `Tracks`: the two runs at one moment; `Process.start_tracks` and
  `Strand.resume_tracks` carry them on.
* `Workflow.run_of_wider`: wider limits do not change a run that ends well.
-/

namespace Orchestration

/-! ## Environments -/

/-- Good answers of the first environment are those of the second, after the same time. -/
def Environment.Extends (env env' : Environment) : Prop :=
  ∀ w r v, (env.respond w r).answer = .ok v → env'.respond w r = env.respond w r

/-- A call that takes no longer than it may, the whole timeout included, is
answered by the caller. -/
theorem Environment.respond_of_le {caller : Caller} {limit : Nat} {w : World} {r : Request}
    (h : (caller w.past r).delay ≤ limit) :
    (Environment.mk caller (some limit)).respond w r = caller w.past r := by
  unfold Environment.respond
  dsimp only
  rw [if_neg (Nat.not_lt.mpr h)]

theorem Environment.le_of_respond_eq_ok {caller : Caller} {limit : Nat} {w : World} {r : Request}
    {v : Json} (h : ((Environment.mk caller (some limit)).respond w r).answer = .ok v) :
    (caller w.past r).delay ≤ limit := by
  by_contra hLate
  unfold Environment.respond at h
  dsimp only at h
  rw [if_pos (Nat.lt_of_not_le hLate)] at h
  cases h

/-- A call that is answered within a timeout is answered alike within a longer one, or without. -/
theorem Environment.extends_of_timeout {caller : Caller} {timeout timeout' : Option Nat}
    (h : ∀ limit', timeout' = some limit' → ∃ limit, timeout = some limit ∧ limit ≤ limit') :
    (Environment.mk caller timeout).Extends (Environment.mk caller timeout') := by
  intro w r v hOk
  have hFirst : (Environment.mk caller timeout).respond w r = caller w.past r := by
    cases timeout with
    | none => rfl
    | some limit => exact Environment.respond_of_le (Environment.le_of_respond_eq_ok hOk)
  rw [hFirst]
  cases timeout' with
  | none => rfl
  | some limit' =>
    obtain ⟨limit, rfl, hLe⟩ := h limit' rfl
    exact Environment.respond_of_le (Nat.le_trans (Environment.le_of_respond_eq_ok hOk) hLe)

/-! ## Strands in step -/

/-- Two strands wait for the same, and the first goes on as the second does, cut off. -/
inductive Strand.InStep : Strand → Strand → Prop
  | ended (o : Outcome) : InStep (.ended (.ok o)) (.ended (.ok o))
  | waiting {next next' : Except ActivityError Json → Process} (due ticket : Nat) (v : Json)
    (hNext : (next (.ok v)).CutOf (next' (.ok v))) :
    InStep (.waiting due ticket (.ok v) next) (.waiting due ticket (.ok v) next')
  | together {active active' : List Strand} {next next' : Except RunError (List Outcome) → Process}
    (hActive : List.Forall₂ InStep active active') (hFails : FailsOn next)
    (hNext : ∀ os, (next (.ok os)).CutOf (next' (.ok os))) :
    InStep (.together active next) (.together active' next')
  | window {active active' : List Strand} {queue queue' : List Process}
    {next next' : Except RunError (List Outcome) → Process} (limit : Nat) (delivered : List Outcome)
    (hActive : List.Forall₂ InStep active active')
      (hQueue : List.Forall₂ Process.CutOf queue queue')
    (hFails : FailsOn next) (hNext : ∀ os, (next (.ok os)).CutOf (next' (.ok os))) :
    InStep (.window limit delivered active queue next)
      (.window limit delivered active' queue' next')

mutual

theorem Strand.nextDue_of_inStep : ∀ {s s' : Strand}, s.InStep s' → s.nextDue = s'.nextDue
  | .ended _, _, h => by
    cases h
    rfl
  | .exhausted, _, h => by cases h
  | .waiting .., _, h => by
    cases h
    rw [Strand.nextDue, Strand.nextDue]
  | .together active next, _, h => by
    cases h with
    | together hActive _ _ =>
      rw [Strand.nextDue, Strand.nextDue]
      exact nextDueOf_of_inStep hActive
  | .window limit delivered active queue next, _, h => by
    cases h with
    | window _ _ hActive _ _ _ =>
      rw [Strand.nextDue, Strand.nextDue]
      exact nextDueOf_of_inStep hActive

theorem nextDueOf_of_inStep :
    ∀ {ss ss' : List Strand}, List.Forall₂ Strand.InStep ss ss' → nextDueOf ss = nextDueOf ss'
  | [], _, h => by
    cases h
    rfl
  | s :: rest, _, h => by
    cases h with
    | cons hHead hRest =>
      rw [nextDueOf, nextDueOf, Strand.nextDue_of_inStep hHead, nextDueOf_of_inStep hRest]

end

mutual

theorem Strand.firstTicket_of_inStep (now : Nat) :
    ∀ {s s' : Strand}, s.InStep s' → s.firstTicket now = s'.firstTicket now
  | .ended _, _, h => by
    cases h
    rfl
  | .exhausted, _, h => by cases h
  | .waiting .., _, h => by
    cases h
    rw [Strand.firstTicket, Strand.firstTicket]
  | .together active next, _, h => by
    cases h with
    | together hActive _ _ =>
      rw [Strand.firstTicket, Strand.firstTicket]
      exact firstTicketOf_of_inStep now hActive
  | .window limit delivered active queue next, _, h => by
    cases h with
    | window _ _ hActive _ _ _ =>
      rw [Strand.firstTicket, Strand.firstTicket]
      exact firstTicketOf_of_inStep now hActive

theorem firstTicketOf_of_inStep (now : Nat) : ∀ {ss ss' : List Strand},
    List.Forall₂ Strand.InStep ss ss' → firstTicketOf now ss = firstTicketOf now ss'
  | [], _, h => by
    cases h
    rfl
  | s :: rest, _, h => by
    cases h with
    | cons hHead hRest =>
      rw [firstTicketOf, firstTicketOf, Strand.firstTicket_of_inStep now hHead,
        firstTicketOf_of_inStep now hRest]

end

theorem outcomes?_of_inStep {ss ss' : List Strand} (h : List.Forall₂ Strand.InStep ss ss') :
    outcomes? ss = outcomes? ss' := by
  induction h with
  | nil => rfl
  | cons hHead _ ih =>
    cases hHead with
    | ended o => rw [outcomes?, outcomes?, ih]
    | waiting due ticket v hNext => rfl
    | together hActive hFails hNext => rfl
    | window limit delivered hActive hQueue hFails hNext => rfl

/-- The same is delivered, and what is left is in step. -/
theorem deliver_of_inStep {ss ss' : List Strand} (h : List.Forall₂ Strand.InStep ss ss')
    (delivered : List Outcome) :
    ∃ os rest rest', deliver delivered ss = .going (os, rest) ∧
      deliver delivered ss' = .going (os, rest') ∧ List.Forall₂ Strand.InStep rest rest' := by
  induction h generalizing delivered with
  | nil => exact ⟨delivered, [], [], rfl, rfl, .nil⟩
  | @cons s s' rest rest' hHead hRest ih =>
    cases hHead with
    | ended o => exact ih (o :: delivered)
    | waiting due ticket v hNext =>
      exact ⟨delivered, _, _, rfl, rfl, .cons (.waiting due ticket v hNext) hRest⟩
    | together hActive hFails hNext =>
      exact ⟨delivered, _, _, rfl, rfl, .cons (.together hActive hFails hNext) hRest⟩
    | window limit before hActive hQueue hFails hNext =>
      exact ⟨delivered, _, _, rfl, rfl,
        .cons (.window limit before hActive hQueue hFails hNext) hRest⟩

/-! ## Runs in step -/

/-- The first run is doomed, or the two are in step in the same world. -/
def Tracks (r r' : Strand × World) : Prop := r.1.Doomed ∨ r.1.InStep r'.1 ∧ r.2 = r'.2

/-- The first run is doomed as `D` says or fails, or the two come equally far, related by `S`. -/
def Progress.Tracks {α : Type} (D : α → Prop) (S : α → α → Prop)
    (r r' : Progress α × World) : Prop :=
  Progress.Satisfies (fun _ => True) True (fun a _ => D a) r ∨
    ∃ a a' w, S a a' ∧ r = (.going a, w) ∧ r' = (.going a', w)

theorem Progress.Tracks.going {α : Type} {D : α → Prop} {S : α → α → Prop} {a a' : α} (h : S a a')
    (w : World) :
    Progress.Tracks D S (.going a, w) (.going a', w) := .inr ⟨a, a', w, h, rfl, rfl⟩

theorem Progress.Tracks.andThen {α β : Type} {D : α → Prop} {S : α → α → Prop} {E : β → Prop}
    {T : β → β → Prop} {r r' : Progress α × World} {f f' : α → World → Progress β × World}
    (h : Progress.Tracks D S r r')
    (hDoomed : ∀ a w, r = (.going a, w) → D a →
      Progress.Satisfies (fun _ => True) True (fun b _ => E b) (f a w))
    (hStep : ∀ a a' w, r = (.going a, w) → S a a' → Progress.Tracks E T (f a w) (f' a' w)) :
    Progress.Tracks E T (Progress.andThen r f) (Progress.andThen r' f') := by
  rcases h with h | ⟨a, a', w, hS, hGoing, rfl⟩
  · obtain ⟨e | a | _, w⟩ := r
    · exact .inl trivial
    · exact .inl (hDoomed a w rfl h)
    · exact .inl trivial
  · have hNext := hStep a a' w hGoing hS
    rw [hGoing]
    exact hNext

theorem headOf_tracks {r r' : Strand × World} (h : Tracks r r') :
    Progress.Tracks Strand.Doomed Strand.InStep (headOf r) (headOf r') := by
  obtain ⟨s, w⟩ := r
  obtain ⟨s', w'⟩ := r'
  rcases h with h | ⟨hStep, rfl⟩
  · exact .inl (headOf_satisfies h)
  · refine .inr ⟨s, s', w, hStep, ?_, ?_⟩ <;> cases hStep <;> rfl

/-- Strands that go on one after the other stay in step. -/
theorem headOf_andThen_tracks {r r' : Strand × World}
    {later later' : World → Progress (List Strand) × World} (hHead : Tracks r r')
    (hLater : ∀ w, Progress.Tracks SomeDoomed (List.Forall₂ Strand.InStep) (later w) (later' w)) :
    Progress.Tracks SomeDoomed (List.Forall₂ Strand.InStep)
      (Progress.andThen (headOf r) fun s w => Progress.andThen (later w) fun ss w =>
        (.going (s :: ss), w))
      (Progress.andThen (headOf r') fun s w =>
        Progress.andThen (later' w) fun ss w => (.going (s :: ss), w)) := by
  refine (headOf_tracks hHead).andThen (fun s w _ hs => ?_) fun s s' w _ hs => ?_
  · have hAny : Progress.Satisfies (fun _ => True) True (fun _ _ => True) (later w) := by
      rcases later w with ⟨e | ss | _, w'⟩ <;> trivial
    exact hAny.andThen fun ss _ _ => someDoomed_head hs ss
  · refine (hLater w).andThen (fun ss _ _ hss => someDoomed_tail hss s) fun ss ss' w' _ hss => ?_
    exact .going (.cons hs hss) w'

/-- Two windows that have delivered the same, with the strands under way in step. -/
def PlacesInStep (s s' : List Outcome × List Strand) : Prop :=
  s.1 = s'.1 ∧ List.Forall₂ Strand.InStep s.2 s'.2

/-- Two windows in step, with those that wait for room in them. -/
def WindowState.InStep (s s' : WindowState) : Prop :=
  s.delivered = s'.delivered ∧ List.Forall₂ Strand.InStep s.active s'.active ∧
    List.Forall₂ Process.CutOf s.queue s'.queue

/-- Two strands that take their places in windows. -/
theorem settleIn_tracks {r r' : Strand × World} (h : Tracks r r') (delivered : List Outcome)
    (placed placed' : Strand → List Strand) (queue : List Process)
    (hDoomed : r.1.Doomed → SomeDoomed (placed r.1))
    (hStep : r.1.InStep r'.1 → List.Forall₂ Strand.InStep (placed r.1) (placed' r'.1)) :
    Progress.Tracks (fun s => WindowDoomed s.1 s.2 queue) PlacesInStep (settleIn delivered placed r)
      (settleIn delivered placed' r') := by
  obtain ⟨s, w⟩ := r
  obtain ⟨s', w'⟩ := r'
  rcases h with h | ⟨hSame, rfl⟩
  · exact .inl (windowDoomed_of_active (hDoomed h) delivered queue).settleIn
  · obtain ⟨os, rest, rest', hDeliver, hDeliver', hRest⟩ :=
      deliver_of_inStep (hStep hSame) delivered
    refine .inr ⟨(os, rest), (os, rest'), w, ⟨rfl, hRest⟩, ?_, ?_⟩
    · rw [← hDeliver]
      cases hSame <;> rfl
    · rw [← hDeliver']
      cases hSame <;> rfl

/-! ## Joining -/

section Join

variable {env env' : Environment} {next next' : Except RunError (List Outcome) → Process}

theorem joinAll_tracks {r r' : Progress (List Strand) × World}
    (h : Progress.Tracks SomeDoomed (List.Forall₂ Strand.InStep) r r') (hFails : FailsOn next)
    (hNext : ∀ os, (next (.ok os)).CutOf (next' (.ok os)))
    (hStart : ∀ os w, Tracks ((next (.ok os)).start env w) ((next' (.ok os)).start env' w)) :
    Tracks (joinAll env next r) (joinAll env' next' r') := by
  rcases h with h | ⟨ss, ss', w, hss, rfl, rfl⟩
  · exact .inl (joinAll_doomed hFails h)
  · rw [joinAll, joinAll, ← outcomes?_of_inStep hss]
    cases outcomes? ss with
    | some os => exact hStart os w
    | none => exact .inr ⟨.together hss hFails hNext, rfl⟩

theorem joinWindow_tracks {limit : Nat} {r r' : Progress WindowState × World}
    (h : Progress.Tracks (fun s => WindowDoomed s.delivered s.active s.queue)
      WindowState.InStep r r')
    (hFails : FailsOn next) (hNext : ∀ os, (next (.ok os)).CutOf (next' (.ok os)))
    (hStart : ∀ os w, Tracks ((next (.ok os)).start env w) ((next' (.ok os)).start env' w)) :
    Tracks (joinWindow env limit next r) (joinWindow env' limit next' r') := by
  rcases h with h | ⟨⟨delivered, active, queue⟩, ⟨delivered', active', queue'⟩, w, hs, rfl, rfl⟩
  · exact .inl (joinWindow_doomed hFails limit h)
  · obtain ⟨rfl, hActive, hQueue⟩ := hs
    have hEmpty : (active.isEmpty && queue.isEmpty) = (active'.isEmpty && queue'.isEmpty) := by
      cases hActive <;> cases hQueue <;> rfl
    dsimp only [joinWindow]
    rw [← hEmpty]
    split
    · exact hStart _ w
    · exact .inr ⟨.window limit delivered hActive hQueue hFails hNext, rfl⟩

end Join

/-! ## Starting -/

section Start

variable {env env' : Environment}

/-- A call that is answered well is answered alike, and one that fails ends the first process. -/
theorem Process.start_call_tracks (hEnv : env.Extends env') {r : Request}
    {next next' : Except ActivityError Json → Process} (hFails : FailsOn next)
    (hNext : ∀ v, (next (.ok v)).CutOf (next' (.ok v)))
    (hStart : ∀ v w, Tracks ((next (.ok v)).start env w) ((next' (.ok v)).start env' w))
    (w : World) :
    Tracks ((Process.call r next).start env w) ((Process.call r next').start env' w) := by
  rw [Process.start, Process.start]
  cases hAnswer : (env.respond w r).answer with
  | error e =>
    obtain ⟨e', hEnd⟩ := hFails e
    refine .inl ?_
    split
    · rw [Process.start_fail hEnd]
      exact Strand.doomed_error e'
    · rw [Strand.Doomed, Strand.Meets, hEnd, Process.fail, Process.Meets]
      exact notOk_error e'
  | ok v =>
    rw [hEnv w r v hAnswer, hAnswer]
    split
    · exact hStart v _
    · exact .inr ⟨.waiting _ _ v (hNext v), rfl⟩

mutual

/-- Two processes that start in one world stay in step, unless the first is doomed. -/
theorem Process.start_tracks (hEnv : env.Extends env') :
    ∀ (p p' : Process) (w : World), p.CutOf p' → Tracks (p.start env w) (p'.start env' w)
  | .done (.ok o), p', w, h => by
    rw [Process.CutOf] at h
    rw [h, Process.start, Process.start]
    exact .inr ⟨.ended o, rfl⟩
  | .done (.error e), p', w, _ => by
    rw [Process.start]
    exact .inl (Strand.doomed_error e)
  | .exhausted, p', w, _ => by
    rw [Process.start]
    exact .inl Strand.doomed_exhausted
  | .call r next, p', w, h => by
    rw [Process.CutOf] at h
    obtain ⟨next', rfl, hFails, hNext⟩ := h
    exact Process.start_call_tracks hEnv hFails hNext
      (fun v w => Process.start_tracks hEnv (next (.ok v)) (next' (.ok v)) w (hNext v)) w
  | .fork .all strands next, p', w, h => by
    rw [Process.CutOf] at h
    obtain ⟨strands', next', rfl, hFails, hStrands, hNext⟩ := h
    rw [Process.start_fork_all, Process.start_fork_all]
    exact joinAll_tracks (startAll_tracks hEnv strands strands' w (allCutOf_iff.mp hStrands))
      hFails hNext fun os w =>
        Process.start_tracks hEnv (next (.ok os)) (next' (.ok os)) w (hNext os)
  | .fork (.window limit) strands next, p', w, h => by
    rw [Process.CutOf] at h
    obtain ⟨strands', next', rfl, hFails, hStrands, hNext⟩ := h
    rw [Process.start_fork_window, Process.start_fork_window]
    exact joinWindow_tracks
      (fill_tracks hEnv limit strands strands' [] w (allCutOf_iff.mp hStrands) List.Forall₂.nil)
      hFails hNext fun os w =>
        Process.start_tracks hEnv (next (.ok os)) (next' (.ok os)) w (hNext os)

theorem startAll_tracks (hEnv : env.Extends env') :
    ∀ (ps ps' : List Process) (w : World), List.Forall₂ Process.CutOf ps ps' →
      Progress.Tracks SomeDoomed (List.Forall₂ Strand.InStep) (startAll env ps w)
        (startAll env' ps' w)
  | [], _, w, h => by
    cases h
    exact .going .nil w
  | p :: rest, _, w, h => by
    cases h with
    | @cons _ p' _ rest' hHead hRest =>
      rw [startAll_cons, startAll_cons]
      exact headOf_andThen_tracks (Process.start_tracks hEnv p p' w hHead)
        fun w => startAll_tracks hEnv rest rest' w hRest

theorem fill_tracks (hEnv : env.Extends env') (limit : Nat) :
    ∀ (queue queue' : List Process) {active active' : List Strand} (delivered : List Outcome)
      (w : World), List.Forall₂ Process.CutOf queue queue' →
      List.Forall₂ Strand.InStep active active' →
      Progress.Tracks (fun s => WindowDoomed s.delivered s.active s.queue) WindowState.InStep
        (fill env limit delivered active queue w) (fill env' limit delivered active' queue' w)
  | [], _, active, active', delivered, w, hQueue, hActive => by
    cases hQueue
    rw [fill, fill]
    exact .going ⟨rfl, hActive, .nil⟩ w
  | p :: rest, _, active, active', delivered, w, hQueue, hActive => by
    cases hQueue with
    | @cons _ p' _ rest' hHead hRest =>
      rw [fill_cons, fill_cons, hActive.length_eq]
      split
      · have hPlaced := settleIn_tracks (Process.start_tracks hEnv p p' w hHead) delivered
          (fun s => active ++ [s]) (fun s => active' ++ [s]) rest
          (fun hs => someDoomed_of_mem (by simp) hs) fun hs =>
            List.rel_append hActive (.cons hs .nil)
        refine hPlaced.andThen (fun s w _ hs => hs.fill limit w) ?_
        rintro ⟨delivered, active⟩ ⟨delivered', active'⟩ w - ⟨rfl, hs⟩
        exact fill_tracks hEnv limit rest rest' _ w hRest hs
      · exact .going ⟨rfl, hActive, .cons hHead hRest⟩ w

end

end Start

/-! ## Going on -/

/-- Two wakeups of one place and ticket, whose strands stay in step when they go on. -/
structure Wakeup.InStep (wake wake' : Wakeup) : Prop where
  ticket : wake.ticket = wake'.ticket
  place : wake.place = wake'.place
  go : ∀ w, Tracks (wake.go w) (wake'.go w)

/-- Wakeups in step are still so once they are sorted. -/
theorem Wakeup.sort_inStep {ws ws' : List Wakeup} (h : List.Forall₂ Wakeup.InStep ws ws') :
    List.Forall₂ Wakeup.InStep (Wakeup.sort ws) (Wakeup.sort ws') := by
  refine forall₂_mergeSort h fun a a' b b' ha hb => ?_
  rw [ha.ticket, hb.ticket]

section Resume

variable {env env' : Environment}

theorem wakeups_inStep (now place : Nat) {active active' : List Strand}
    (h : List.Forall₂ Strand.InStep active active')
    (hGo : ∀ s ∈ active, ∀ s' w, s.InStep s' → Tracks (s.resume env w) (s'.resume env' w)) :
    List.Forall₂ Wakeup.InStep (wakeups env now place active) (wakeups env' now place active') := by
  induction h generalizing place with
  | nil => exact .nil
  | @cons s s' rest rest' hHead _ ih =>
    have hRest := ih (place + 1) fun t ht => hGo t (List.mem_cons_of_mem _ ht)
    rw [wakeups, wakeups, ← Strand.firstTicket_of_inStep now hHead]
    cases s.firstTicket now with
    | none => exact hRest
    | some ticket => exact .cons ⟨rfl, rfl, fun w => hGo s List.mem_cons_self s' w hHead⟩ hRest

/-- Strands of two windows that are woken one by one stay in step. -/
theorem runWakeups_tracks {now before : Nat} {woken : List Strand} {ws ws' : List Wakeup}
    (h : List.Forall₂ Wakeup.InStep ws ws') (queue : List Process) :
    ∀ {delivered : List Outcome} {active active' : List Strand} (w : World),
      List.Forall₂ Strand.InStep active active' →
      WakeupsFit env now before woken ws delivered active →
      Progress.Tracks (fun s => WindowDoomed s.1 s.2 queue) PlacesInStep
        (runWakeups before delivered active ws w) (runWakeups before delivered active' ws' w) := by
  induction h with
  | nil =>
    intro delivered active active' w hActive _
    exact .going ⟨rfl, hActive⟩ w
  | @cons wake wake' rest rest' hHead hRest ih =>
    intro delivered active active' w hActive hFit
    have hPlace : wake.place - (delivered.length - before) < active.length := by
      obtain ⟨s, -, -, -, -, hAt⟩ := hFit.fits wake List.mem_cons_self
      exact (List.getElem?_eq_some_iff.mp hAt).1
    have hOne := settleIn_tracks (hHead.go w) delivered
      (active.set (wake.place - (delivered.length - before)))
      (active'.set (wake'.place - (delivered.length - before))) queue
      (fun hs => someDoomed_of_mem (List.mem_set hPlace _) hs) ?_
    · rw [runWakeups_cons, runWakeups_cons]
      refine hOne.andThen (fun s w' hSettle hs => hs.runWakeups (hFit.rest hSettle) w') ?_
      rintro ⟨os, rest₁⟩ ⟨os', rest₂⟩ w' hSettle ⟨rfl, hs⟩
      exact ih w' hs (hFit.rest hSettle)
    · intro hs
      rw [← hHead.place]
      exact forall₂_set_both hActive hs _

mutual

/-- Two strands in step that go on in one world stay in step, unless the first is doomed. -/
theorem Strand.resume_tracks (hEnv : env.Extends env') :
    ∀ (s s' : Strand) (w : World), s.InStep s' → Tracks (s.resume env w) (s'.resume env' w)
  | .ended _, _, w, h => by
    cases h with
    | ended o =>
      rw [Strand.resume, Strand.resume]
      exact .inr ⟨.ended o, rfl⟩
  | .exhausted, _, w, h => by cases h
  | .waiting due ticket _ next, _, w, h => by
    cases h with
    | waiting _ _ v hNext =>
      rw [Strand.resume, Strand.resume]
      split
      · exact Process.start_tracks hEnv _ _ w hNext
      · exact .inr ⟨.waiting due ticket v hNext, rfl⟩
  | .together active next, _, w, h => by
    cases h with
    | @together _ active' _ next' hActive hFails hNext =>
      rw [Strand.resume_together, Strand.resume_together]
      exact joinAll_tracks (resumeAll_tracks hEnv active active' w hActive) hFails hNext
        fun os w => Process.start_tracks hEnv _ _ w (hNext os)
  | .window limit delivered active queue next, _, w, h => by
    cases h with
    | @window _ active' _ queue' _ next' _ _ hActive hQueue hFails hNext =>
      have hWake :=
        wakeups_inStep w.now 0 hActive fun s hs s' w => activeResume_tracks hEnv active s hs s' w
      have hWoken := runWakeups_tracks (Wakeup.sort_inStep hWake) queue w hActive
        (wakeupsFit_sort env w.now delivered active)
      rw [Strand.resume_window, Strand.resume_window]
      refine joinWindow_tracks (hWoken.andThen (fun s w _ hs => hs.fill limit w) ?_) hFails hNext
        fun os w => Process.start_tracks hEnv _ _ w (hNext os)
      rintro ⟨os, rest⟩ ⟨os', rest'⟩ w' - ⟨rfl, hs⟩
      exact fill_tracks hEnv limit queue queue' os w' hQueue hs

theorem resumeAll_tracks (hEnv : env.Extends env') :
    ∀ (ss ss' : List Strand) (w : World), List.Forall₂ Strand.InStep ss ss' →
      Progress.Tracks SomeDoomed (List.Forall₂ Strand.InStep) (resumeAll env ss w)
        (resumeAll env' ss' w)
  | [], _, w, h => by
    cases h
    exact .going .nil w
  | s :: rest, _, w, h => by
    cases h with
    | @cons _ s' _ rest' hHead hRest =>
      rw [resumeAll_cons, resumeAll_cons]
      exact headOf_andThen_tracks (Strand.resume_tracks hEnv s s' w hHead)
        fun w => resumeAll_tracks hEnv rest rest' w hRest

/-- `Strand.resume_tracks` for any of the strands of a window. -/
theorem activeResume_tracks (hEnv : env.Extends env') :
    ∀ (active : List Strand) (s : Strand), s ∈ active → ∀ (s' : Strand) (w : World), s.InStep s' →
      Tracks (s.resume env w) (s'.resume env' w)
  | [], s, hs, s', w, h => by cases hs
  | t :: rest, s, hs, s', w, h => by
    rcases List.mem_cons.mp hs with hEq | hs
    · rw [hEq] at h ⊢
      exact Strand.resume_tracks hEnv t s' w h
    · exact activeResume_tracks hEnv rest s hs s' w h

end

/-! ## Whole runs -/

/-- If the first of two runs in step ends well, the second ends alike, in the same world. -/
theorem Strand.settle_tracks (hEnv : env.Extends env') {o : Outcome} {final : World} (fuel : Nat) :
    ∀ {r r' : Strand × World}, Tracks r r' → r.1.settle env fuel r.2 = some (.ok o, final) →
      r'.1.settle env' fuel r'.2 = some (.ok o, final) := by
  induction fuel with
  | zero =>
    rintro ⟨s, w⟩ ⟨s', w'⟩ - hSettle
    simp [Strand.settle] at hSettle
  | succ fuel ih =>
    rintro ⟨s, w⟩ ⟨s', w'⟩ hTracks hSettle
    rcases hTracks with hDoomed | ⟨hStep, hWorld⟩
    · exact absurd rfl (hDoomed.settle hSettle o)
    · obtain rfl : w = w' := hWorld
      rcases Strand.settle_succ_eq_some.mp hSettle with ⟨rfl, rfl⟩ | ⟨due, hDue, hRest⟩
      · cases hStep
        rfl
      · refine Strand.settle_succ_eq_some.mpr (.inr ⟨due, ?_, ih ?_ hRest⟩)
        · rw [← Strand.nextDue_of_inStep hStep, hDue]
        · exact Strand.resume_tracks hEnv s s' _ hStep

end Resume

/-- A run that ends well ends alike where workflows may be nested as deep and every call is answered
that was answered, with the same calls in the same order and in the same time. -/
theorem Workflow.run_of_extends {w : Workflow} {limits limits' : Limits} {caller : Caller}
    {fuel : Nat} {requestId : String} {payload : Json} {e : Execution} {o : Outcome}
    (hDepth : limits.maxDepth ≤ limits'.maxDepth)
    (hConcurrency : limits.mapConcurrency = limits'.mapConcurrency)
    (hEnv : (Environment.mk caller limits.activityTimeout).Extends
      ⟨caller, limits'.activityTimeout⟩)
    (hRun : w.run limits caller fuel requestId payload = some e) (hOk : e.result = .ok o) :
    w.run limits' caller fuel requestId payload = some e := by
  unfold Workflow.run at hRun ⊢
  obtain ⟨⟨r, world⟩, hSettle, rfl⟩ := Option.map_eq_some_iff.mp hRun
  obtain rfl : r = .ok o := hOk
  have hCut :
      (w.process limits fuel requestId payload).CutOf (w.process limits' fuel requestId payload) :=
    Workflow.walk_cutOf hDepth hConcurrency fuel _ w _ payload []
  have hStart := Process.start_tracks hEnv _ _ ⟨0, []⟩ hCut
  exact Option.map_eq_some_iff.mpr ⟨(.ok o, world),
    Strand.settle_tracks hEnv fuel hStart hSettle, rfl⟩

/-- Limits only cut runs off: a run that ends well is the same run under a wider limit of depth and
with a longer timeout or none, as to its end, its calls and its time. Calls that take the whole
timeout, but no longer, are answered by the caller. -/
theorem Workflow.run_of_wider {w : Workflow} {limits : Limits} {depth : Nat} {timeout : Option Nat}
    {caller : Caller} {fuel : Nat} {requestId : String} {payload : Json} {e : Execution}
    {o : Outcome} (hDepth : limits.maxDepth ≤ depth)
    (hTimeout : ∀ limit', timeout = some limit' → ∃ limit, limits.activityTimeout = some limit ∧
      limit ≤ limit')
    (hRun : w.run limits caller fuel requestId payload = some e) (hOk : e.result = .ok o) :
    w.run ⟨depth, timeout, limits.mapConcurrency⟩ caller fuel requestId payload = some e ∧
      ∀ limit, limits.activityTimeout = some limit →
        ∀ world r, (caller world.past r).delay ≤ limit →
        (Environment.mk caller limits.activityTimeout).respond world r = caller world.past r := by
  refine ⟨Workflow.run_of_extends hDepth rfl (Environment.extends_of_timeout hTimeout) hRun hOk, ?_⟩
  intro limit hLimit world r hDelay
  rw [hLimit]
  exact Environment.respond_of_le hDelay

/-- Two workflows side by side, each of which makes two calls. -/
def sideBySide : Workflow :=
  let twoCalls : Workflow := ⟨"s", [("s", .task ⟨"f", some "t"⟩), ("t", .task ⟨"g", none⟩)]⟩
  ⟨"p", [("p", .parallel ⟨[⟨some "a", twoCalls⟩, ⟨some "b", twoCalls⟩], none⟩)]⟩

/-- Answers each call with the number of the calls before it, after five milliseconds. -/
def countingCaller : Caller := fun past _ => ⟨.ok (.int past.length), 5⟩

/-- All four calls take the whole timeout of five milliseconds, two at a time. -/
theorem Workflow.run_of_wider_sideBySide :
    ∃ e : Execution, e.result = .ok ⟨.obj [("a", .int 2), ("b", .int 3)], ["p"]⟩ ∧ e.elapsed = 10 ∧
      e.calls = [⟨"f", .null, "r"⟩, ⟨"f", .null, "r"⟩, ⟨"g", .int 0, "r"⟩, ⟨"g", .int 1, "r"⟩] ∧
      sideBySide.run ⟨1, some 5, none⟩ countingCaller 9 "r" .null = some e ∧
      sideBySide.run ⟨3, some 7, none⟩ countingCaller 9 "r" .null = some e := by
  have hRun : sideBySide.run ⟨1, some 5, none⟩ countingCaller 9 "r" .null = some
      ⟨"r", .ok ⟨.obj [("a", .int 2), ("b", .int 3)], ["p"]⟩,
        [⟨"f", .null, "r"⟩, ⟨"f", .null, "r"⟩, ⟨"g", .int 0, "r"⟩, ⟨"g", .int 1, "r"⟩], 10⟩ := rfl
  have hTimeout : ∀ limit', some 7 = some limit' → ∃ limit, some 5 = some limit ∧
      limit ≤ limit' := by
    rintro limit' ⟨⟩
    exact ⟨5, rfl, by decide⟩
  exact ⟨_, rfl, rfl, rfl, hRun, (Workflow.run_of_wider (by decide) hTimeout hRun rfl).1⟩

end Orchestration
