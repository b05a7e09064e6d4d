import Mathlib.Data.List.Forall2
import Mathlib.Data.List.Nodup
import Mathlib.Data.List.Perm.Basic
import Orchestration.Run.Schedule

/-!
# Strands side by side

How strands that run side by side go on together: one after the other, or in a window, of which the
head is delivered, and what the fork does that they belong to.

* `runWakeups_satisfies`: strands of a window go on in the order of their tickets while the head of
  the window moves on, so places have to be counted anew after each delivery. What one strand keeps
  that goes on at its place, all wakeups keep.
* `joinAll_of_satisfies`, `joinWindow_of_satisfies`: where a fork gets to, by how
  far its strands have come.
* `Strand.settle_succ_eq_some`: one step of a strand that settles.
-/

namespace Orchestration

/-- How far strands have come satisfies this: `F` if one failed, `X` if one was not
followed any further. -/
def Progress.Satisfies {α : Type} (F : RunError → Prop) (X : Prop) (M : α → World → Prop) :
    Progress α × World → Prop
  | (.failed e, _) => F e
  | (.exhausted, _) => X
  | (.going a, w) => M a w

theorem Progress.Satisfies.mono {α : Type} {F G : RunError → Prop} {X : Prop}
    {M : α → World → Prop} {r : Progress α × World} (h : Progress.Satisfies F X M r)
    (hFG : ∀ e, F e → G e) : Progress.Satisfies G X M r := by
  obtain ⟨e | a | _, w⟩ := r
  · exact hFG e h
  · exact h
  · exact h

theorem Progress.Satisfies.imp {α : Type} {F : RunError → Prop} {X : Prop} {M N : α → World → Prop}
    {r : Progress α × World} (h : Progress.Satisfies F X M r) (hMN : ∀ a w, M a w → N a w) :
    Progress.Satisfies F X N r := by
  obtain ⟨e | a | _, w⟩ := r
  · exact h
  · exact hMN a w h
  · exact h

/-! ## Delivery -/

/-- Delivery takes some strands off the head, all of which have ended well. -/
theorem deliver_going {delivered delivered' : List Outcome} {active active' : List Strand}
    (h : deliver delivered active = .going (delivered', active')) :
    ∃ os : List Outcome, active = os.map (fun o => .ended (.ok o)) ++ active' ∧
      delivered' = os.reverse ++ delivered := by
  induction active generalizing delivered with
  | nil =>
    simp only [deliver, Progress.going.injEq, Prod.mk.injEq] at h
    exact ⟨[], by simp [h.2], by simp [h.1]⟩
  | cons s rest ih =>
    unfold deliver at h
    split at h
    · rename_i o rest' heq
      cases heq
      obtain ⟨os, hActive, hDelivered⟩ := ih h
      exact ⟨o :: os, by simp [hActive], by simp [hDelivered]⟩
    · cases h
    · simp only [Progress.going.injEq, Prod.mk.injEq] at h
      exact ⟨[], by simp [h.2], by simp [h.1]⟩

/-- A strand at the head of what is left has not ended. -/
theorem deliver_going_head {delivered delivered' : List Outcome} {active rest : List Strand}
    {s : Strand} (h : deliver delivered active = .going (delivered', s :: rest)) :
    ∀ r, s ≠ .ended r := by
  induction active generalizing delivered with
  | nil => simp [deliver] at h
  | cons t ts ih =>
    unfold deliver at h
    split at h
    · rename_i heq
      cases heq
      exact ih h
    · cases h
    · rename_i hOk hError
      simp only [Progress.going.injEq, Prod.mk.injEq, List.cons.injEq] at h
      obtain ⟨-, rfl, rfl⟩ := h
      rintro (e | o) rfl
      · exact hError e ts rfl
      · exact hOk o ts rfl

/-! ## Steps of strands that run side by side -/

/-- One member may be replaced by one that stands in the relation wherever it does. -/
theorem forall₂_set {α β : Type} {R : α → β → Prop} {as : List α} {bs : List β}
    (h : List.Forall₂ R as bs) {i : Nat} {a a' : α} (hAt : as[i]? = some a)
    (hKeep : ∀ b, R a b → R a' b) :
    List.Forall₂ R (as.set i a') bs := by
  induction h generalizing i with
  | nil => simp at hAt
  | cons hHead hRest ih =>
    cases i with
    | zero =>
      cases hAt
      exact List.Forall₂.cons (hKeep _ hHead) hRest
    | succ i => exact List.Forall₂.cons hHead (ih hAt)

/-- Goes on with what is under way. -/
def Progress.andThen {α β : Type} :
    Progress α × World → (α → World → Progress β × World) → Progress β × World
  | (.failed e, w), _ => (.failed e, w)
  | (.exhausted, w), _ => (.exhausted, w)
  | (.going a, w), f => f a w

theorem Progress.Satisfies.andThen {α β : Type} {F : RunError → Prop} {X : Prop}
    {M : α → World → Prop} {N : β → World → Prop} {r : Progress α × World}
    {f : α → World → Progress β × World} (h : Progress.Satisfies F X M r)
    (hf : ∀ a w, M a w → Progress.Satisfies F X N (f a w)) :
    Progress.Satisfies F X N (Progress.andThen r f) := by
  obtain ⟨e | a | _, w⟩ := r
  · exact h
  · exact hf a w h
  · exact h

/-- A strand that has gone on takes the others with it only if it failed. -/
def headOf : Strand × World → Progress Strand × World
  | (.ended (.error e), w) => (.failed e, w)
  | (.exhausted, w) => (.exhausted, w)
  | (s, w) => (.going s, w)

/-- A strand that has ended badly or was not followed leaves nothing to be known of it. -/
theorem headOf_satisfies {P : Strand → Prop} {r : Strand × World} (h : P r.1) :
    Progress.Satisfies (fun _ => True) True (fun s _ => P s) (headOf r) := by
  unfold headOf
  split
  · trivial
  · trivial
  · exact h

/-- A strand that has gone on takes its place in a window, and what has ended at
the head is delivered. -/
def settleIn (delivered : List Outcome) (placed : Strand → List Strand) :
    Strand × World → Progress (List Outcome × List Strand) × World
  | (.exhausted, w) => (.exhausted, w)
  | (s, w) => (deliver delivered (placed s), w)

theorem deliver_of_settleIn {delivered : List Outcome} {placed : Strand → List Strand}
    {r : Strand × World} {state : List Outcome × List Strand} {w : World}
    (h : settleIn delivered placed r = (.going state, w)) :
    deliver delivered (placed r.1) = .going state := by
  unfold settleIn at h
  split at h
  · cases h
  · exact (Prod.mk.inj h).1

theorem startAll_cons (env : Environment) (p : Process) (rest : List Process) (w : World) :
    startAll env (p :: rest) w = Progress.andThen (headOf (p.start env w)) fun s w =>
      Progress.andThen (startAll env rest w) fun ss w => (.going (s :: ss), w) := by
  rw [startAll]
  rcases p.start env w with ⟨s, w'⟩
  rcases s with (e | o) | _ | _ | _ | _ <;> simp only [headOf, Progress.andThen] <;>
    rcases startAll env rest w' with ⟨e' | ss | _, w''⟩ <;> rfl

theorem resumeAll_cons (env : Environment) (s : Strand) (rest : List Strand) (w : World) :
    resumeAll env (s :: rest) w = Progress.andThen (headOf (s.resume env w)) fun s w =>
      Progress.andThen (resumeAll env rest w) fun ss w => (.going (s :: ss), w) := by
  rw [resumeAll]
  rcases s.resume env w with ⟨s, w'⟩
  rcases s with (e | o) | _ | _ | _ | _ <;> simp only [headOf, Progress.andThen] <;>
    rcases resumeAll env rest w' with ⟨e' | ss | _, w''⟩ <;> rfl

theorem fill_cons (env : Environment) (limit : Nat) (delivered : List Outcome)
    (active : List Strand) (p : Process) (rest : List Process) (w : World) :
    fill env limit delivered active (p :: rest) w =
      if active.length < limit then
        Progress.andThen (settleIn delivered (fun s => active ++ [s]) (p.start env w)) fun s w =>
          fill env limit s.1 s.2 rest w
      else (.going ⟨delivered, active, p :: rest⟩, w) := by
  rw [fill]
  split
  · rcases p.start env w with ⟨s, w'⟩
    cases s <;> simp only [settleIn] <;> first | rfl | (cases deliver delivered _ <;> rfl)
  · rfl

theorem runWakeups_cons (before : Nat) (delivered : List Outcome) (active : List Strand)
    (wake : Wakeup) (rest : List Wakeup) (w : World) :
    runWakeups before delivered active (wake :: rest) w =
      Progress.andThen (settleIn delivered
          (active.set (wake.place - (delivered.length - before))) (wake.go w)) fun s w =>
        runWakeups before s.1 s.2 rest w := by
  rw [runWakeups]
  rcases wake.go w with ⟨s, w'⟩
  cases s <;> simp only [settleIn] <;> first | rfl | (cases deliver delivered _ <;> rfl)

/-! ## Wakeups -/

/-- What is known of the wakeup of a strand that still waits in the window `active`. -/
def Wakeup.Fits (env : Environment) (now shift : Nat) (woken active : List Strand) (wake : Wakeup) :
    Prop :=
  ∃ s ∈ woken, (s.firstTicket now).isSome ∧ wake.go = (fun w => s.resume env w) ∧
    shift ≤ wake.place ∧ active[wake.place - shift]? = some s

/-- The wakeups of a list of strands are those of the strands that have an answer, in order. -/
theorem mem_wakeups {env : Environment} {now : Nat} {active : List Strand} {wake : Wakeup} :
    ∀ {place : Nat}, wake ∈ wakeups env now place active →
      wake.Fits env now place active active := by
  induction active with
  | nil => simp [wakeups]
  | cons s rest ih =>
    intro place h
    have later : wake ∈ wakeups env now (place + 1) rest →
        wake.Fits env now place (s :: rest) (s :: rest) := by
      intro h
      obtain ⟨t, ht, hDue, hGo, hPlace, hAt⟩ := ih h
      refine ⟨t, List.mem_cons_of_mem _ ht, hDue, hGo, by omega, ?_⟩
      rw [show wake.place - place =
        (wake.place - (place + 1)) + 1 by omega, List.getElem?_cons_succ]
      exact hAt
    rw [wakeups] at h
    cases hTicket : s.firstTicket now with
    | none =>
      rw [hTicket] at h
      exact later h
    | some ticket =>
      rw [hTicket] at h
      rcases List.mem_cons.mp h with rfl | h
      · exact ⟨s, List.mem_cons_self, by simp [hTicket], rfl, Nat.le_refl _, by simp⟩
      · exact later h

theorem place_of_mem_wakeups {env : Environment} {now : Nat} {active : List Strand} {wake : Wakeup}
    {place : Nat} (h : wake ∈ wakeups env now place active) : place ≤ wake.place := by
  obtain ⟨-, -, -, -, hPlace, -⟩ := mem_wakeups h
  exact hPlace

/-- No two strands are woken at one place. -/
theorem nodup_wakeups (env : Environment) (now : Nat) (active : List Strand) :
    ∀ place : Nat, ((wakeups env now place active).map Wakeup.place).Nodup := by
  induction active with
  | nil => simp [wakeups]
  | cons s rest ih =>
    intro place
    rw [wakeups]
    cases s.firstTicket now with
    | none => exact ih (place + 1)
    | some ticket =>
      refine List.nodup_cons.mpr ⟨?_, ih (place + 1)⟩
      intro h
      obtain ⟨wake, hMem, hPlace⟩ := List.mem_map.mp h
      have := place_of_mem_wakeups hMem
      simp only at hPlace
      omega

theorem Wakeup.sort_perm (ws : List Wakeup) : (Wakeup.sort ws).Perm ws := List.mergeSort_perm _ _

theorem wakeups_eq_nil_iff {env : Environment} {now : Nat} {active : List Strand} :
    ∀ {place : Nat}, wakeups env now place active = [] ↔ firstTicketOf now active = none := by
  induction active with
  | nil => simp [wakeups, firstTicketOf]
  | cons s rest ih =>
    intro place
    rw [wakeups, firstTicketOf]
    cases s.firstTicket now with
    | none => simpa using ih
    | some ticket => cases firstTicketOf now rest <;> simp

section Run

variable {env : Environment} {now before : Nat} {woken : List Strand}
variable {F : RunError → Prop} {X : Prop} {M : Nat → List Outcome × List Strand → World → Prop}

/-- After one strand has gone on, the other wakeups still fit their strands,
which have not ended. -/
theorem Wakeup.Fits.after {delivered delivered' : List Outcome} {active active' : List Strand}
    {wake other : Wakeup} {s : Strand} (hBefore : before ≤ delivered.length)
    (hOther : other.Fits env now (delivered.length - before) woken active)
    (hWake : wake.Fits env now (delivered.length - before) woken active)
    (hNe : other.place ≠ wake.place)
    (hDeliver : deliver delivered (active.set (wake.place - (delivered.length - before)) s) =
      .going (delivered', active')) :
    other.Fits env now (delivered'.length - before) woken active' := by
  obtain ⟨t, ht, hDue, hGo, hPlace, hAt⟩ := hOther
  obtain ⟨-, -, -, -, hPlace', -⟩ := hWake
  obtain ⟨os, hSet, hDelivered⟩ := deliver_going hDeliver
  have hAt' : (active.set (wake.place - (delivered.length - before)) s)[other.place -
      (delivered.length - before)]? = some t := by
    rw [List.getElem?_set_ne (by omega)]
    exact hAt
  rw [hSet] at hAt'
  have hLong : os.length ≤ other.place - (delivered.length - before) := by
    by_contra hShort
    rw [List.getElem?_append_left (by simp; omega), List.getElem?_map] at hAt'
    cases hOs : os[other.place - (delivered.length - before)]? with
    | none => simp [hOs] at hAt'
    | some o =>
      rw [hOs] at hAt'
      cases hAt'
      simp [Strand.firstTicket] at hDue
  rw [List.getElem?_append_right (by simpa using hLong), List.length_map] at hAt'
  subst hDelivered
  simp only [List.length_append, List.length_reverse]
  refine ⟨t, ht, hDue, hGo, by omega, ?_⟩
  rw [show other.place - (os.length + delivered.length - before) =
    other.place - (delivered.length - before) - os.length by omega]
  exact hAt'

/-- The wakeups that are left fit the strands of a window: `before` results were delivered when the
strands in `woken` got their answers. -/
structure WakeupsFit (env : Environment) (now before : Nat) (woken : List Strand) (ws : List Wakeup)
    (delivered : List Outcome) (active : List Strand) : Prop where
  before_le : before ≤ delivered.length
  fits : ∀ wake ∈ ws, wake.Fits env now (delivered.length - before) woken active
  nodup : (ws.map Wakeup.place).Nodup

theorem wakeupsFit_sort (env : Environment) (now : Nat) (delivered : List Outcome)
    (active : List Strand) :
    WakeupsFit env now delivered.length active (Wakeup.sort (wakeups env now 0 active)) delivered
      active := by
  refine ⟨Nat.le_refl _, fun wake hWake => ?_, ?_⟩
  · have hMem := (Wakeup.sort_perm _).mem_iff.mp hWake
    simpa using mem_wakeups hMem
  · exact ((Wakeup.sort_perm _).map Wakeup.place).nodup_iff.mpr (nodup_wakeups env now active 0)

/-- When one strand has gone on, the wakeups that are left fit what it made of the window. -/
theorem WakeupsFit.rest {delivered : List Outcome} {active : List Strand} {wake : Wakeup}
    {rest : List Wakeup} (h : WakeupsFit env now before woken (wake :: rest) delivered active)
    {r : Strand × World} {s : List Outcome × List Strand} {w : World}
    (hSettle : settleIn delivered (active.set (wake.place - (delivered.length - before))) r =
      (.going s, w)) :
    WakeupsFit env now before woken rest s.1 s.2 := by
  have hDeliver := deliver_of_settleIn hSettle
  obtain ⟨os, -, hDelivered⟩ := deliver_going hDeliver
  obtain ⟨hNew, hNodup⟩ := List.nodup_cons.mp h.nodup
  have hLength : delivered.length ≤ s.1.length := by
    rw [hDelivered, List.length_append]
    exact Nat.le_add_left _ _
  refine ⟨Nat.le_trans h.before_le hLength, fun other hOther => ?_, hNodup⟩
  have hNe : other.place ≠ wake.place := fun hEq => hNew (hEq ▸ List.mem_map_of_mem hOther)
  exact (h.fits other (List.mem_cons_of_mem _ hOther)).after h.before_le
    (h.fits wake List.mem_cons_self) hNe hDeliver

/-- What each woken strand keeps that goes on at its place, all of them keep. -/
theorem runWakeups_satisfies
    (hStep : ∀ k delivered active w i s, M k (delivered, active) w → active[i]? = some s →
      s ∈ woken → (s.firstTicket now).isSome →
      Progress.Satisfies F X (M (k + 1)) (settleIn delivered (active.set i) (s.resume env w)))
    (ws : List Wakeup) :
    ∀ {k : Nat} {delivered : List Outcome} {active : List Strand} {w : World},
      M k (delivered, active) w → WakeupsFit env now before woken ws delivered active →
      Progress.Satisfies F X (M (k + ws.length)) (runWakeups before delivered active ws w) := by
  induction ws with
  | nil =>
    intro k delivered active w hM _
    simpa [runWakeups, Progress.Satisfies] using hM
  | cons wake rest ih =>
    intro k delivered active w hM hFit
    obtain ⟨s, hs, hDue, hGo, -, hAt⟩ := hFit.fits wake List.mem_cons_self
    have hOne := hStep k delivered active w _ s hM hAt hs hDue
    rw [runWakeups_cons, show wake.go w = s.resume env w by rw [hGo]]
    rcases hResume : settleIn delivered (active.set (wake.place - (delivered.length - before)))
      (s.resume env w) with ⟨_ | ⟨delivered', active'⟩ | _, w'⟩
    · rwa [hResume] at hOne
    · rw [hResume] at hOne
      have hLater := ih (k := k + 1) hOne (hFit.rest hResume)
      simpa [Progress.andThen, Nat.add_assoc, Nat.add_comm 1] using hLater
    · rwa [hResume] at hOne

/-- Letting all strands of a window go on that have an answer. -/
theorem runWakeups_sort_satisfies (env : Environment) (now : Nat) (delivered : List Outcome)
    (active : List Strand) (w : World)
    (hStart : M 0 (delivered, active) w)
    (hStep : ∀ k delivered active' w i s, M k (delivered, active') w → active'[i]? = some s →
      s ∈ active → (s.firstTicket now).isSome →
      Progress.Satisfies F X (M (k + 1)) (settleIn delivered (active'.set i) (s.resume env w))) :
    Progress.Satisfies F X (M (wakeups env now 0 active).length)
      (runWakeups delivered.length delivered active
        (Wakeup.sort (wakeups env now 0 active)) w) := by
  have hRun := runWakeups_satisfies hStep _ hStart (wakeupsFit_sort env now delivered active)
  rwa [(Wakeup.sort_perm _).length_eq, Nat.zero_add] at hRun

end Run

/-! ## Joining -/

/-- How a fork goes on whose strands have all come as far as this. -/
def joinAll (env : Environment) (next : Except RunError (List Outcome) → Process) :
    Progress (List Strand) × World → Strand × World
  | (.failed e, w) => (next (.error e)).start env w
  | (.exhausted, w) => (.exhausted, w)
  | (.going ss, w) =>
    match outcomes? ss with
    | some os => (next (.ok os)).start env w
    | none => (.together ss next, w)

/-- How a fork goes on whose window has come as far as this. -/
def joinWindow (env : Environment) (limit : Nat) (next : Except RunError (List Outcome) → Process) :
    Progress WindowState × World → Strand × World
  | (.failed e, w) => (next (.error e)).start env w
  | (.exhausted, w) => (.exhausted, w)
  | (.going s, w) =>
    if s.active.isEmpty && s.queue.isEmpty then (next (.ok s.delivered.reverse)).start env w
    else (.window limit s.delivered s.active s.queue next, w)

section Join

variable {env : Environment} {next : Except RunError (List Outcome) → Process} {F : RunError → Prop}
  {X : Prop}

theorem Process.start_fork_all (strands : List Process) (w : World) :
    (Process.fork .all strands next).start env w = joinAll env next (startAll env strands w) := by
  rw [Process.start]
  rcases startAll env strands w with ⟨e | ss | _, w'⟩ <;> rfl

theorem Process.start_fork_window (limit : Nat) (strands : List Process) (w : World) :
    (Process.fork (.window limit) strands next).start env w =
      joinWindow env limit next (fill env limit [] [] strands w) := by
  rw [Process.start]
  rcases fill env limit [] [] strands w with ⟨e | s | _, w'⟩ <;> rfl

theorem Strand.resume_together (ss : List Strand) (w : World) :
    (Strand.together ss next).resume env w = joinAll env next (resumeAll env ss w) := by
  rw [Strand.resume]
  rcases resumeAll env ss w with ⟨e | ss' | _, w'⟩ <;> rfl

/-- The strands of a window that have an answer go on, then the queue fills the room they made. -/
theorem Strand.resume_window (limit : Nat) (delivered : List Outcome) (active : List Strand)
    (queue : List Process) (w : World) :
    (Strand.window limit delivered active queue next).resume env w =
      joinWindow env limit next (Progress.andThen
        (runWakeups delivered.length delivered active (Wakeup.sort (wakeups env w.now 0 active)) w)
        fun s w => fill env limit s.1 s.2 queue w) := by
  rw [Strand.resume]
  rcases runWakeups _ _ _ _ _ with ⟨e | s | _, w'⟩
  · rfl
  · dsimp only [Progress.andThen]
    rcases fill env limit s.1 s.2 queue w' with ⟨e | s' | _, w''⟩ <;> rfl
  · rfl

/-- What holds however a fork goes on, if its strands have come as far as `M` says. -/
theorem joinAll_of_satisfies {P : Strand × World → Prop} {M : List Strand → World → Prop}
    {r : Progress (List Strand) × World} (h : Progress.Satisfies F X M r)
    (hFailed : ∀ e w, F e → P ((next (.error e)).start env w))
    (hExhausted : ∀ w, X → P (.exhausted, w))
    (hEnded : ∀ ss os w, M ss w → outcomes? ss = some os → P ((next (.ok os)).start env w))
    (hWaiting : ∀ ss w, M ss w → outcomes? ss = none → P (.together ss next, w)) :
    P (joinAll env next r) := by
  obtain ⟨e | ss | _, w⟩ := r
  · exact hFailed e w h
  · rw [joinAll]
    cases hOutcomes : outcomes? ss with
    | some os => exact hEnded ss os w h hOutcomes
    | none => exact hWaiting ss w h hOutcomes
  · exact hExhausted w h

/-- What holds however a fork goes on, if its window has come as far as `M` says. -/
theorem joinWindow_of_satisfies {P : Strand × World → Prop} {M : WindowState → World → Prop}
    {limit : Nat} {r : Progress WindowState × World} (h : Progress.Satisfies F X M r)
    (hFailed : ∀ e w, F e → P ((next (.error e)).start env w))
    (hExhausted : ∀ w, X → P (.exhausted, w))
    (hEnded : ∀ delivered w, M ⟨delivered, [], []⟩ w →
      P ((next (.ok delivered.reverse)).start env w))
    (hWaiting : ∀ s w, M s w → (s.active = [] → s.queue ≠ []) →
      P (.window limit s.delivered s.active s.queue next, w)) :
    P (joinWindow env limit next r) := by
  obtain ⟨e | ⟨delivered, active, queue⟩ | _, w⟩ := r
  · exact hFailed e w h
  · rw [joinWindow]
    split
    · rename_i hEmpty
      simp only [Bool.and_eq_true, List.isEmpty_iff] at hEmpty
      obtain ⟨rfl, rfl⟩ := hEmpty
      exact hEnded delivered w h
    · rename_i hLeft
      refine hWaiting _ w h fun (hActive : active = []) (hQueue : queue = []) => hLeft ?_
      rw [hActive, hQueue]
      rfl
  · exact hExhausted w h

end Join

/-! ## Letting time pass -/

/-- A strand that is not over goes on at the time of its next answer, if it waits for one. -/
theorem Strand.settle_succ_of_ne_ended {env : Environment} {s : Strand} (h : ∀ r, s ≠ .ended r)
    (fuel : Nat) (w : World) : s.settle env (fuel + 1) w = s.nextDue.bind fun due =>
      (s.resume env { w with now := due }).1.settle env fuel
          (s.resume env { w with now := due }).2 := by
  cases s with
  | ended r => exact absurd rfl (h r)
  | exhausted => rfl
  | _ =>
    rw [Strand.settle.eq_def]
    dsimp only
    split <;> rename_i hDue <;> rw [hDue] <;> rfl

/-- A strand that settles is over, or time passes up to its next answer and
it goes on from there. -/
theorem Strand.settle_succ_eq_some {env : Environment} {fuel : Nat} {s : Strand} {w w' : World}
    {r : Except RunError Outcome} :
    s.settle env (fuel + 1) w = some (r, w') ↔
      s = .ended r ∧ w = w' ∨ ∃ due, s.nextDue = some due ∧
        (s.resume env { w with now := due }).1.settle env fuel
          (s.resume env { w with now := due }).2 = some (r, w') := by
  by_cases hEnded : ∃ r', s = .ended r'
  · obtain ⟨r', rfl⟩ := hEnded
    simp [Strand.settle, Strand.nextDue]
  · have hNot : ∀ r', s ≠ .ended r' := fun r' h => hEnded ⟨r', h⟩
    rw [Strand.settle_succ_of_ne_ended hNot, Option.bind_eq_some_iff]
    simp [hNot r]

end Orchestration
