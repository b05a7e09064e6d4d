import Orchestration.Proofs.Run.AtRest
import Orchestration.Proofs.Run.Completion
import Orchestration.Proofs.Run.FirstFailure

/-!
# Calls side by side

Forks of single calls that all start at once, moment by moment. The calls are given by the responses
to them, and a moment by how long after the start it is.

* `Response.Stands`: how the strand of a call stands at a moment: it waits
  until its delay has passed.
* `startAll_calls`, `resumeAll_calls`: the calls of a fork that watches all of them.
* `fill_calls`, `runWakeups_calls`: the calls of a fork with a window that has room for all of them.
* `Width.Underway`: how such a fork stands that has nothing to report yet. `Width.start_calls` and
  `Width.Underway.resume`: from moment to moment it stays so, or it fails as it has to report.
-/

namespace Orchestration

variable {env : Environment} {since earlier elapsed : Nat} {rs : List Response}

/-! ## Single calls -/

/-- The strand has an answer to go on with. -/
def Strand.isDue (now : Nat) (s : Strand) : Bool := (s.firstTicket now).isSome

/-- What comes back from calls that start one after the other, the first of them in this world. -/
def Environment.responses (env : Environment) : List Request → World → List Response
  | [], _ => []
  | r :: rest, w => env.respond w r :: env.responses rest { w with past := r :: w.past }

/-- How a single call goes on with its answer. -/
def Process.ofAnswer : Except ActivityError Json → Process
  | .ok v => .value v
  | .error e => .fail (.activity e)

theorem Process.single_eq (q : Request) : Process.single q = .call q Process.ofAnswer := rfl

theorem Process.start_ofAnswer (answer : Except ActivityError Json) (w : World) :
    (Process.ofAnswer answer).start env w = (.ended (endOfAnswer answer), w) := by
  cases answer <;> rfl

/-- The strand of a call that was started at the time `since`, so long after that. -/
inductive Response.Stands (r : Response) (since elapsed : Nat) : Strand → Prop
  | ended (h : r.delay ≤ elapsed) : r.Stands since elapsed (.ended (endOfAnswer r.answer))
  | waits (h : elapsed < r.delay) (ticket : Nat) :
    r.Stands since elapsed (.waiting (since + r.delay) ticket r.answer Process.ofAnswer)

/-- A call starts and is over at once, or it waits. -/
theorem Process.start_single (env : Environment) (q : Request) (w : World) :
    ∃ s, (Process.single q).start env w = (s, { w with past := q :: w.past }) ∧
      (env.respond w q).Stands w.now 0 s := by
  rw [Process.single_eq, Process.start]
  split
  · rename_i hNone
    exact ⟨_, Process.start_ofAnswer _ _, .ended (Nat.le_of_eq hNone)⟩
  · rename_i hSome
    exact ⟨_, rfl, .waits (Nat.pos_of_ne_zero hSome) _⟩

namespace Response.Stands

variable {r : Response} {s : Strand} {w : World}

/-- A call goes on when its delay has passed. -/
theorem resume (h : r.Stands since earlier s) (env : Environment) (hLe : earlier ≤ elapsed)
    (hNow : w.now = since + elapsed) :
    ∃ s', s.resume env w = (s', w) ∧ r.Stands since elapsed s' := by
  cases h with
  | ended h =>
    rw [Strand.resume]
    exact ⟨_, rfl, .ended (Nat.le_trans h hLe)⟩
  | waits h ticket =>
    rw [Strand.resume]
    split
    · exact ⟨_, Process.start_ofAnswer _ _, .ended (by omega)⟩
    · exact ⟨_, rfl, .waits (by omega) ticket⟩

/-- Before its delay has passed, a call waits. -/
theorem nextDue (h : r.Stands since earlier s) (hLater : earlier < r.delay) :
    s.nextDue = some (since + r.delay) := by
  cases h with
  | ended h => omega
  | waits _ _ => rfl

theorem ne_exhausted (h : r.Stands since earlier s) : s ≠ .exhausted := by
  cases h <;> simp

/-- At the moment at which it stands so, a call has no answer left to go on with. -/
theorem not_isDue (h : r.Stands since elapsed s) {now : Nat} (hNow : now = since + elapsed) :
    s.isDue now = false := by
  rw [Strand.isDue]
  cases h with
  | ended _ => rfl
  | waits h ticket =>
    rw [Strand.firstTicket, if_neg (by omega)]
    rfl

end Response.Stands

/-! ## Fork that watches its calls -/

/-- The calls stand so long after their start, and none has failed. -/
structure Watched (since elapsed : Nat) (rs : List Response) (ss : List Strand) : Prop where
  stands : List.Forall₂ (fun r s => r.Stands since elapsed s) rs ss
  unfailed : ∀ r ∈ rs, r.fails → elapsed < r.delay

/-- The calls have gone on one after the other, up to the first that has failed, if there is one. -/
def Progress.OfWatched (since elapsed : Nat) (rs : List Response) :
    Progress (List Strand) × World → Prop :=
  Progress.Satisfies (fun e => ∃ cause, e = .activity cause ∧ FailedFirst elapsed rs cause) False
    fun ss _ => Watched since elapsed rs ss

/-- A call that has gone on, in front of others that go on after it. -/
theorem Response.Stands.ofWatched {r : Response} {s : Strand} {w : World}
    {later : World → Progress (List Strand) × World} (h : r.Stands since elapsed s)
    (hLater : Progress.OfWatched since elapsed rs (later w)) :
    Progress.OfWatched since elapsed (r :: rs) (Progress.andThen (headOf (s, w)) fun s w =>
      Progress.andThen (later w) fun ss w => (.going (s :: ss), w)) := by
  have hGoing : (r.fails → elapsed < r.delay) → Progress.OfWatched since elapsed (r :: rs)
      (Progress.andThen (later w) fun ss w => (.going (s :: ss), w)) := by
    intro hr
    generalize later w = after at hLater
    obtain ⟨e | ss | _, w'⟩ := after
    · obtain ⟨cause, hCause, hFirst⟩ := hLater
      exact ⟨cause, hCause, .later hr hFirst⟩
    · exact ⟨.cons h hLater.stands, List.forall_mem_cons.mpr ⟨hr, hLater.unfailed⟩⟩
    · exact hLater
  obtain ⟨answer, delay⟩ := r
  cases h with
  | ended h =>
    cases answer with
    | error e => exact ⟨e, rfl, .here h rs⟩
    | ok v => exact hGoing (by simp)
  | waits h ticket => exact hGoing fun _ => h

theorem startAll_calls (calls : List Request) :
    ∀ w : World,
    Progress.OfWatched w.now 0 (env.responses calls w) (startAll env (calls.map .single) w) := by
  induction calls with
  | nil =>
    intro w
    exact ⟨.nil, by simp [Environment.responses]⟩
  | cons q rest ih =>
    intro w
    obtain ⟨s, hStart, hStands⟩ := Process.start_single env q w
    rw [List.map_cons, startAll_cons, hStart]
    exact hStands.ofWatched (ih { w with past := q :: w.past })

theorem resumeAll_calls {ss : List Strand} {w : World}
    (h : List.Forall₂ (fun r s => r.Stands since earlier s) rs ss) (hLe : earlier ≤ elapsed)
    (hNow : w.now = since + elapsed) :
    Progress.OfWatched since elapsed rs (resumeAll env ss w) := by
  induction h with
  | nil =>
    rw [resumeAll]
    exact ⟨.nil, by simp⟩
  | cons hHead _ ih =>
    obtain ⟨s', hResume, hStands⟩ := hHead.resume env hLe hNow
    rw [resumeAll_cons, hResume]
    exact hStands.ofWatched ih

/-! ## Window over calls -/

theorem length_wakeups (env : Environment) (now : Nat) (active : List Strand) :
    ∀ place : Nat, (wakeups env now place active).length = active.countP (Strand.isDue now) := by
  induction active with
  | nil => exact fun _ => rfl
  | cons s rest ih =>
    intro place
    rw [wakeups, List.countP_cons, Strand.isDue, ← ih (place + 1)]
    cases s.firstTicket now <;> rfl

/-- Calls in a window, at the latest so long after their start: those in front are delivered, and
the others stand as they did then or before. -/
def Windowed (since elapsed : Nat) (rs : List Response) (active : List Strand) : Prop :=
  ∃ front back, rs = front ++ back ∧ (∀ r ∈ front, r.fails = false ∧ r.delay ≤ elapsed) ∧
    List.Forall₂ (fun r s => ∃ earlier ≤ elapsed, r.Stands since earlier s) back active

/-- The calls of the window have gone on, up to where the first in order that fails was
delivered, if that is so. -/
def Progress.OfWindowed {α : Type} (elapsed : Nat) (rs : List Response) (M : α → World → Prop) :
    Progress α × World → Prop :=
  Progress.Satisfies (fun e => ∃ cause, e = .activity cause ∧ ∃ t ≤ elapsed,
    FailureInTurn rs cause t) False M

/-- The window `rest` after what has ended at the head of `active` was delivered. -/
structure LeftOf (since elapsed now : Nat) (rs : List Response)
    (active rest : List Strand) : Prop where
  windowed : Windowed since elapsed rs rest
  head : HeadWaits rest
  due : rest.countP (Strand.isDue now) = active.countP (Strand.isDue now)
  length_le : rest.length ≤ active.length

namespace Windowed

variable {active : List Strand}

theorem mono (h : Windowed since earlier rs active) (hLe : earlier ≤ elapsed) :
    Windowed since elapsed rs active := by
  obtain ⟨front, back, hSplit, hFront, hBack⟩ := h
  refine ⟨front, back, hSplit, fun r hr => ⟨(hFront r hr).1, Nat.le_trans (hFront r hr).2 hLe⟩, ?_⟩
  exact hBack.imp fun r s ⟨before, hBefore, hStands⟩ => ⟨before, Nat.le_trans hBefore hLe, hStands⟩

/-- One more call starts. -/
theorem snoc (h : Windowed since elapsed rs active) {r : Response} {s : Strand}
    (hStands : r.Stands since elapsed s) :
    Windowed since elapsed (rs ++ [r]) (active ++ [s]) := by
  obtain ⟨front, back, rfl, hFront, hBack⟩ := h
  refine ⟨front, back ++ [r], List.append_assoc _ _ _, hFront, ?_⟩
  exact List.rel_append hBack (.cons ⟨elapsed, Nat.le_refl _, hStands⟩ .nil)

/-- One of the calls goes on at its place. -/
theorem set (h : Windowed since elapsed rs active) {i : Nat} {s : Strand} {w : World}
    (hAt : active[i]? = some s) (env : Environment) (hNow : w.now = since + elapsed) :
    Windowed since elapsed rs (active.set i (s.resume env w).1) := by
  obtain ⟨front, back, hSplit, hFront, hBack⟩ := h
  refine ⟨front, back, hSplit, hFront, (forall₂_set hBack.flip hAt fun r hr => ?_).flip⟩
  obtain ⟨before, hBefore, hStands⟩ := hr
  obtain ⟨s', hResume, hStands'⟩ := hStands.resume env hBefore hNow
  exact ⟨elapsed, Nat.le_refl _, by rwa [hResume]⟩

theorem exists_stands (h : Windowed since elapsed rs active) {s : Strand} (hs : s ∈ active) :
    ∃ r : Response, ∃ earlier ≤ elapsed, r.Stands since earlier s := by
  obtain ⟨front, back, -, -, hBack⟩ := h
  obtain ⟨r, -, hr⟩ := exists_of_forall₂ hBack.flip hs
  exact ⟨r, hr⟩

/-- What has ended at the head is delivered, up to a call that waits, or to one that has failed. -/
theorem deliver (h : Windowed since elapsed rs active) (now : Nat) (delivered : List Outcome)
    (w : World) :
    Progress.OfWindowed elapsed rs (fun s w' => w' = w ∧ LeftOf since elapsed now rs active s.2)
      (Orchestration.deliver delivered active, w) := by
  obtain ⟨front, back, rfl, hFront, hBack⟩ := h
  induction hBack generalizing front delivered with
  | nil => exact ⟨rfl, ⟨front, [], rfl, hFront, .nil⟩, by simp [HeadWaits], rfl, Nat.le_refl _⟩
  | @cons r s back active hHead hBack ih =>
    obtain ⟨before, hBefore, hStands⟩ := hHead
    obtain ⟨answer, delay⟩ := r
    cases hStands with
    | ended hEnded =>
      have hDelay : delay ≤ elapsed := Nat.le_trans hEnded hBefore
      cases answer with
      | error e =>
        exact ⟨e, rfl, (FailureInTurn.append_iff hFront).mpr ⟨delay, hDelay, .here e delay back⟩⟩
      | ok v =>
        have hMore : ∀ r ∈ front ++ [⟨.ok v, delay⟩], r.fails = false ∧ r.delay ≤ elapsed := by
          simpa [or_imp, forall_and, hDelay] using hFront
        have hRest := ih (⟨v, []⟩ :: delivered) (front ++ [⟨.ok v, delay⟩]) hMore
        rw [List.append_assoc] at hRest
        exact hRest.imp fun s w' ⟨hWorld, hLeft⟩ =>
          ⟨hWorld, hLeft.windowed, hLeft.head, hLeft.due, Nat.le_succ_of_le hLeft.length_le⟩
    | waits hWaits ticket =>
      refine ⟨rfl, ⟨front, _, rfl, hFront, .cons ⟨before, hBefore, .waits hWaits ticket⟩ hBack⟩, ?_,
        rfl, Nat.le_refl _⟩
      rintro s rest ⟨⟩ result
      simp

/-- A call that has gone on takes its place in the window. -/
theorem settleIn (placed : Strand → List Strand) (r : Strand × World)
    (h : Windowed since elapsed rs (placed r.1)) (hRun : r.1 ≠ .exhausted) (now : Nat)
    (delivered : List Outcome) :
    Progress.OfWindowed elapsed rs (fun s w' => w' = r.2 ∧
      LeftOf since elapsed now rs (placed r.1) s.2)
        (Orchestration.settleIn delivered placed r) := by
  obtain ⟨s, w⟩ := r
  have hSettle : Orchestration.settleIn delivered placed (s, w) =
      (Orchestration.deliver delivered (placed s), w) := by
    cases s <;> first | rfl | exact absurd rfl hRun
  rw [hSettle]
  exact h.deliver now delivered w

end Windowed

/-- The calls in the window stand so long after their start, and the first that
is not delivered waits. -/
structure AtWindow (since elapsed : Nat) (rs : List Response) (active : List Strand) : Prop where
  windowed : Windowed since elapsed rs active
  head : HeadWaits active
  idle : active.countP (Strand.isDue (since + elapsed)) = 0

/-- Where there is room for all, all calls start. -/
theorem fill_calls {limit : Nat} (calls : List Request) :
    ∀ {rs : List Response} {delivered : List Outcome} {active : List Strand} (w : World),
      AtWindow w.now 0 rs active → active.length + calls.length ≤ limit →
      Progress.OfWindowed 0 (rs ++ env.responses calls w)
        (fun s _ => s.queue = [] ∧ AtWindow w.now 0 (rs ++ env.responses calls w) s.active)
        (fill env limit delivered active (calls.map .single) w) := by
  induction calls with
  | nil =>
    intro rs delivered active w h _
    rw [Environment.responses, List.append_nil, List.map_nil, fill]
    exact ⟨rfl, h⟩
  | cons q rest ih =>
    intro rs delivered active w h hRoom
    rw [List.length_cons] at hRoom
    obtain ⟨s, hStart, hStands⟩ := Process.start_single env q w
    have hPlaced : Windowed w.now 0 (rs ++ [env.respond w q]) (active ++ [s]) :=
      h.windowed.snoc hStands
    have hIdle : (active ++ [s]).countP (Strand.isDue w.now) = 0 := by
      have hActive : active.countP (Strand.isDue w.now) = 0 := h.idle
      have hOwn : s.isDue w.now = false := hStands.not_isDue rfl
      rw [List.countP_append, hActive, List.countP_singleton, hOwn]
      rfl
    rw [List.map_cons, fill_cons, if_pos (by omega), hStart, Environment.responses,
      List.append_cons]
    have hSettled :=
      Windowed.settleIn (fun s => active ++ [s]) (s, { w with past := q :: w.past }) hPlaced
        hStands.ne_exhausted w.now delivered
    generalize Orchestration.settleIn delivered (fun s => active ++ [s])
      (s, { w with past := q :: w.past }) = after
      at hSettled
    obtain ⟨e | ⟨delivered', active'⟩ | _, w'⟩ := after
    · obtain ⟨cause, hCause, t, ht, hTurn⟩ := hSettled
      exact ⟨cause, hCause, t, ht, hTurn.append _⟩
    · obtain ⟨rfl, hLeft⟩ := hSettled
      have hLength := hLeft.length_le
      rw [List.length_append, List.length_singleton] at hLength
      exact ih { w with past := q :: w.past } ⟨hLeft.windowed, hLeft.head, hLeft.due.trans hIdle⟩
        (by omega)
    · exact hSettled

/-- When a strand that is due has gone on, one fewer is due. -/
theorem countP_isDue_set {active : List Strand} {i : Nat} {s s' : Strand} {now : Nat}
    (hAt : active[i]? = some s) (hDue : s.isDue now = true) (hOver : s'.isDue now = false) :
    (active.set i s').countP (Strand.isDue now) + 1 = active.countP (Strand.isDue now) := by
  obtain ⟨hShort, rfl⟩ := List.getElem?_eq_some_iff.mp hAt
  have hSome : 0 < active.countP (Strand.isDue now) :=
    List.countP_pos_iff.mpr ⟨_, List.getElem_mem hShort, hDue⟩
  rw [List.countP_set hShort, if_pos hDue, hOver, if_neg Bool.false_ne_true]
  omega

/-- The calls in a window that have an answer go on. -/
theorem runWakeups_calls {active : List Strand} {w : World} (h : AtWindow since earlier rs active)
    (hLe : earlier ≤ elapsed) (hNow : w.now = since + elapsed) (delivered : List Outcome) :
    Progress.OfWindowed elapsed rs (fun s _ => AtWindow since elapsed rs s.2)
      (runWakeups delivered.length delivered active
        (Wakeup.sort (wakeups env w.now 0 active)) w) := by
  -- Each call that goes on leaves one fewer that is due, and there is a wakeup for each that is.
  have hAll := runWakeups_sort_satisfies env w.now delivered active w
    (F := fun e => ∃ cause, e = .activity cause ∧ ∃ t ≤ elapsed, FailureInTurn rs cause t)
      (X := False)
    (M := fun k s w' => w'.now = w.now ∧ Windowed since elapsed rs s.2 ∧ HeadWaits s.2 ∧
      k + s.2.countP (Strand.isDue w.now) = active.countP (Strand.isDue w.now))
    ⟨rfl, h.windowed.mono hLe, h.head, Nat.zero_add _⟩ ?_
  · refine hAll.imp fun s w' ⟨_, hWindowed, hHead, hDue⟩ => ⟨hWindowed, hHead, ?_⟩
    rw [length_wakeups] at hDue
    rw [← hNow]
    omega
  · rintro k delivered' active' w' i s ⟨hWorld, hWindowed, -, hDue⟩ hAt - hTicket
    have hNow' : w'.now = since + elapsed := hWorld.trans hNow
    obtain ⟨r, before, hBefore, hStands⟩ := hWindowed.exists_stands (List.mem_of_getElem? hAt)
    obtain ⟨s', hResume, hStands'⟩ := hStands.resume env hBefore hNow'
    have hPlaced := hWindowed.set hAt env hNow'
    rw [hResume] at hPlaced ⊢
    have hSettled :=
      Windowed.settleIn (active'.set i) (s', w') hPlaced hStands'.ne_exhausted w.now delivered'
    refine hSettled.imp fun state w'' ⟨hSameWorld, hLeft⟩ => ?_
    refine ⟨(congrArg World.now hSameWorld).trans hWorld, hLeft.windowed, hLeft.head, ?_⟩
    have hFewer := countP_isDue_set hAt hTicket (hStands'.not_isDue hNow)
    calc
      k + 1 + state.2.countP (Strand.isDue w.now) =
          k + 1 + (active'.set i s').countP (Strand.isDue w.now) := by
        rw [hLeft.due]
      _ = k + ((active'.set i s').countP (Strand.isDue w.now) + 1) := Nat.add_right_comm k 1 _
      _ = active.countP (Strand.isDue w.now) := by rw [hFewer, hDue]

/-! ## Forks of calls -/

section Waiting

variable {ss : List Strand} {s : Strand} {now : Nat}

/-- The next answer to some strands is none later than the next one to each of them. -/
theorem exists_nextDueOf_le {due : Nat} (hs : s ∈ ss) (hDue : s.nextDue = some due) :
    ∃ first, nextDueOf ss = some first ∧ first ≤ due := by
  induction ss with
  | nil => cases hs
  | cons t rest ih =>
    rw [nextDueOf]
    rcases List.mem_cons.mp hs with rfl | hs
    · rw [hDue]
      cases nextDueOf rest with
      | none => exact ⟨due, rfl, Nat.le_refl due⟩
      | some b => exact ⟨min due b, rfl, Nat.min_le_left due b⟩
    · obtain ⟨b, hb, hLe⟩ := ih hs
      rw [hb]
      cases t.nextDue with
      | none => exact ⟨b, rfl, hLe⟩
      | some a => exact ⟨min a b, rfl, Nat.le_trans (Nat.min_le_right a b) hLe⟩

theorem isSome_firstTicketOf_iff : (firstTicketOf now ss).isSome ↔ ∃ s ∈ ss, s.isDue now := by
  induction ss with
  | nil => simp [firstTicketOf]
  | cons s rest ih => rw [isSome_firstTicketOf_cons, ih, List.exists_mem_cons_iff, Strand.isDue]

/-- Where there are outcomes of all strands, all have ended. -/
theorem ended_of_outcomes? {os : List Outcome} (h : outcomes? ss = some os) (hs : s ∈ ss) :
    ∃ o, s = .ended (.ok o) := by
  induction ss generalizing os with
  | nil => cases hs
  | cons t rest ih =>
    unfold outcomes? at h
    split at h
    · rename_i hNil
      cases hNil
    · rename_i o rest' hCons
      cases hCons
      obtain ⟨os', hRest, -⟩ := Option.map_eq_some_iff.mp h
      rcases List.mem_cons.mp hs with rfl | hs
      · exact ⟨o, rfl⟩
      · exact ih hRest hs
    · cases h

end Waiting

variable {next : Except RunError (List Outcome) → Process} {width : Width} {s : Strand} {w : World}

/-- A fork of calls that has nothing to report yet, so long after its start. -/
inductive Width.Underway (since elapsed : Nat) (rs : List Response)
    (next : Except RunError (List Outcome) → Process) : Width → Strand → Prop
  | together {active : List Strand} (h : Watched since elapsed rs active) :
    Underway since elapsed rs next .all (.together active next)
  | window {active : List Strand} (h : AtWindow since elapsed rs active) (limit : Nat)
    (delivered : List Outcome) :
    Underway since elapsed rs next (.window limit) (.window limit delivered active [] next)

namespace Width.Underway

theorem ne_ended (h : width.Underway since elapsed rs next s) (result : Except RunError Outcome) :
    s ≠ .ended result := by
  cases h <;> simp

theorem not_reports (h : width.Underway since elapsed rs next s) (e : ActivityError) :
    ¬ width.Reports elapsed rs e := by
  cases h with
  | together h =>
    intro hReports
    obtain ⟨r, hr, hFails, hDelay⟩ := FailedFirst.exists_mem hReports
    exact Nat.not_lt.mpr hDelay (h.unfailed r hr hFails)
  | window h _ _ =>
    obtain ⟨⟨front, back, rfl, hFront, hBack⟩, hHead, hIdle⟩ := h
    rw [Width.Reports, FailureInTurn.append_iff hFront]
    rintro ⟨t, hNow, hTurn⟩
    cases hBack with
    | nil => cases hTurn
    | @cons r s back active hStands _ =>
      -- The first call that is not delivered waits, so no turn comes before its answer.
      obtain ⟨before, -, hStands⟩ := hStands
      cases hStands with
      | ended _ => exact hHead _ _ rfl _ rfl
      | waits _ ticket =>
        have hWaits :
            (Strand.waiting (since + r.delay) ticket r.answer Process.ofAnswer).isDue
              (since + elapsed) =
            false := by
          simpa using List.countP_eq_zero.mp hIdle _ List.mem_cons_self
        have hDelay := hTurn.head_le
        rw [Strand.isDue, Strand.firstTicket, if_pos (by omega)] at hWaits
        cases hWaits

/-- A call that is not over has its answer to come. -/
theorem exists_nextDue (h : width.Underway since elapsed rs next s) {r : Response} (hr : r ∈ rs)
    (hLater : elapsed < r.delay) : ∃ due, s.nextDue = some due ∧ due ≤ since + r.delay := by
  cases h with
  | together h =>
    obtain ⟨s, hs, hStands⟩ := exists_of_forall₂ h.stands hr
    exact exists_nextDueOf_le hs (hStands.nextDue hLater)
  | window h _ _ =>
    obtain ⟨⟨front, back, rfl, hFront, hBack⟩, -, -⟩ := h
    rcases List.mem_append.mp hr with hr | hr
    · exact absurd hLater (Nat.not_lt.mpr (hFront r hr).2)
    · obtain ⟨s, hs, before, hBefore, hStands⟩ := exists_of_forall₂ hBack hr
      exact exists_nextDueOf_le hs (hStands.nextDue (Nat.lt_of_le_of_lt hBefore hLater))

theorem not_isDue (h : width.Underway since elapsed rs next s) : ¬ s.isDue (since + elapsed) := by
  cases h with
  | together h =>
    rw [Strand.isDue, Strand.firstTicket, isSome_firstTicketOf_iff]
    rintro ⟨s, hs, hDue⟩
    obtain ⟨r, -, hStands⟩ := exists_of_forall₂ h.stands.flip hs
    rw [hStands.not_isDue rfl] at hDue
    cases hDue
  | window h _ _ =>
    rw [Strand.isDue, Strand.firstTicket, isSome_firstTicketOf_iff]
    rintro ⟨s, hs, hDue⟩
    exact List.countP_eq_zero.mp h.idle s hs hDue

/-- The next answer is still to come. -/
theorem lt_nextDue (h : width.Underway since elapsed rs next s) {due : Nat}
    (hDue : s.nextDue = some due) :
    since + elapsed < due := by
  by_contra hPassed
  exact h.not_isDue (Strand.isSome_firstTicket hDue (Nat.not_lt.mp hPassed))

end Width.Underway

/-! ### Moment by moment -/

/-- A fork of calls, so long after its start: it has failed as it has to report, or it has
nothing to report yet. -/
def Width.Goes (width : Width) (since elapsed : Nat) (rs : List Response)
    (next : Except RunError (List Outcome) → Process) (failure : ActivityError → RunError)
    (s : Strand) : Prop :=
  (∃ e, width.Reports elapsed rs e ∧ s = .ended (.error (failure e))) ∨
    width.Underway since elapsed rs next s

variable {failure : ActivityError → RunError}

theorem Progress.OfWatched.joinAll {r : Progress (List Strand) × World}
    (h : Progress.OfWatched since elapsed rs r) (hFails : ∃ r ∈ rs, r.fails)
    (hNext : ∀ e, next (.error (.activity e)) = .fail (failure e)) :
    Width.all.Goes since elapsed rs next failure (Orchestration.joinAll env next r).1 := by
  refine joinAll_of_satisfies (P := fun r => Width.all.Goes since elapsed rs next failure r.1) h
    ?_ ?_ ?_ ?_
  · rintro _ w ⟨cause, rfl, hFirst⟩
    exact .inl ⟨cause, hFirst, by rw [hNext, Process.fail, Process.start]⟩
  · exact fun _ h => h.elim
  · -- The call that fails has not ended well.
    intro ss os w hWatched hOutcomes
    obtain ⟨r, hr, hrFails⟩ := hFails
    obtain ⟨s, hs, hStands⟩ := exists_of_forall₂ hWatched.stands hr
    obtain ⟨o, rfl⟩ := ended_of_outcomes? hOutcomes hs
    cases hStands.nextDue (hWatched.unfailed r hr hrFails)
  · exact fun ss w hWatched _ => .inr (.together hWatched)

theorem Progress.OfWindowed.joinWindow {r : Progress WindowState × World} {limit : Nat}
    (h : Progress.OfWindowed elapsed rs (fun s _ => s.queue = [] ∧
      AtWindow since elapsed rs s.active) r)
    (hFails : ∃ r ∈ rs, r.fails) (hNext : ∀ e, next (.error (.activity e)) = .fail (failure e)) :
    (Width.window limit).Goes since elapsed rs next failure
      (Orchestration.joinWindow env limit next r).1 := by
  refine joinWindow_of_satisfies
    (P := fun r => (Width.window limit).Goes since elapsed rs next failure r.1) h ?_ ?_ ?_ ?_
  · rintro _ w ⟨cause, rfl, hTurn⟩
    exact .inl ⟨cause, hTurn, by rw [hNext, Process.fail, Process.start]⟩
  · exact fun _ h => h.elim
  · -- The call that fails is not among those that are delivered.
    rintro delivered w ⟨-, ⟨front, back, rfl, hFront, hBack⟩, -, -⟩
    obtain ⟨r, hr, hrFails⟩ := hFails
    cases hBack
    rw [List.append_nil] at hr
    rw [(hFront r hr).1] at hrFails
    cases hrFails
  · rintro ⟨delivered, active, queue⟩ w ⟨rfl, hWindow⟩ -
    exact .inr (.window hWindow limit delivered)

/-- A fork of calls that all start at once. -/
theorem Width.start_calls (calls : List Request)
    (hRoom : ∀ limit, width = .window limit → calls.length ≤ limit)
    (hFails : ∃ r ∈ env.responses calls w, r.fails)
    (hNext : ∀ e, next (.error (.activity e)) = .fail (failure e)) :
    width.Goes w.now 0 (env.responses calls w) next failure
      ((Process.fork width (calls.map .single) next).start env w).1 := by
  cases width with
  | all =>
    rw [Process.start_fork_all]
    exact (startAll_calls calls w).joinAll hFails hNext
  | window limit =>
    rw [Process.start_fork_window]
    have hEmpty : AtWindow w.now 0 [] [] := ⟨⟨[], [], rfl, by simp, .nil⟩, by simp [HeadWaits], rfl⟩
    exact Progress.OfWindowed.joinWindow
      (fill_calls calls w hEmpty (by simpa using hRoom limit rfl)) hFails hNext

/-- A fork of calls goes on later. -/
theorem Width.Underway.resume (h : width.Underway since earlier rs next s) (hLe : earlier ≤ elapsed)
    (hNow : w.now = since + elapsed) (hFails : ∃ r ∈ rs, r.fails)
    (hNext : ∀ e, next (.error (.activity e)) = .fail (failure e)) :
    width.Goes since elapsed rs next failure (s.resume env w).1 := by
  cases h with
  | together h =>
    rw [Strand.resume_together]
    exact (resumeAll_calls h.stands hLe hNow).joinAll hFails hNext
  | window h limit delivered =>
    rw [Strand.resume_window]
    refine Progress.OfWindowed.joinWindow
      ((runWakeups_calls h hLe hNow delivered).andThen fun state w hState => ?_) hFails hNext
    rw [fill]
    exact ⟨rfl, hState⟩

end Orchestration
