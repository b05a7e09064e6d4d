import Mathlib.Logic.Hydra
import Orchestration.Proofs.Run.AtRest
import Orchestration.Proofs.Run.Completion

/-!
# Runs end

A process is a tree in which each answer leads one level down, so what it comes to in time is
over after finitely many answers, whatever its calls take, whatever comes back from them and
however they interleave.

* `Strand.Halts`: a strand is over, or waits for an answer, after which it halts.
* `Process.start_halts`: what a regular process starts as halts.
* `Process.exists_settle`: a regular process that is followed to its end settles.

For strands side by side each answer replaces one of them by one that is further on, and a
strand that has ended may leave. So what is left of them decreases, as heads of a hydra do
of which none grows back.
-/

namespace Orchestration

variable {env : Environment}

/-- The strand is over, or it waits for an answer: it does nothing before that is due, and then it
goes on to a strand that halts. -/
inductive Strand.Halts (env : Environment) : Strand → Prop
  | ended (result : Except RunError Outcome) : Halts env (.ended result)
  | exhausted : Halts env .exhausted
  | waits {s : Strand} (hDue : s.nextDue.isSome)
    (hIdle : ∀ w : World, s.firstTicket w.now = none → s.resume env w = (s, w))
    (hNext : ∀ w : World, (s.firstTicket w.now).isSome → Halts env (s.resume env w).1) : Halts env s

namespace Strand.Halts

variable {s : Strand}

theorem idle (h : s.Halts env) {w : World} (hNone : s.firstTicket w.now = none) :
    s.resume env w = (s, w) := by
  cases h with
  | ended result => rw [Strand.resume]
  | exhausted => rw [Strand.resume]
  | waits _ hIdle _ => exact hIdle w hNone

theorem resume (h : s.Halts env) (w : World) : (s.resume env w).1.Halts env := by
  cases hTicket : s.firstTicket w.now with
  | none =>
    rw [h.idle hTicket]
    exact h
  | some ticket =>
    cases h with
    | ended result => simp [Strand.firstTicket] at hTicket
    | exhausted => simp [Strand.firstTicket] at hTicket
    | waits _ _ hNext => exact hNext w (by rw [hTicket]; rfl)

theorem nextDue (h : s.Halts env) (hEnded : ∀ r, s ≠ .ended r) (hExhausted : s ≠ .exhausted) :
    s.nextDue.isSome := by
  cases h with
  | ended result => exact absurd rfl (hEnded result)
  | exhausted => exact absurd rfl hExhausted
  | waits hDue _ _ => exact hDue

end Strand.Halts

theorem Strand.Halts.waiting {due ticket : Nat} {answer : Except ActivityError Json}
    {next : Except ActivityError Json → Process}
    (hNext : ∀ w, ((next answer).start env w).1.Halts env) :
    (Strand.waiting due ticket answer next).Halts env := by
  refine .waits rfl (fun w hNone => ?_) fun w hDue => ?_
  · rw [Strand.firstTicket, ite_eq_right_iff] at hNone
    rw [Strand.resume, if_neg fun h => by cases hNone h]
  · rw [Strand.resume]
    split
    · exact hNext w
    · rename_i hLater
      rw [Strand.firstTicket, if_neg hLater] at hDue
      cases hDue

/-! ## What is left of strands -/

/-- The first strand is what the second goes on to with an answer. -/
def Strand.Later (env : Environment) (s' s : Strand) : Prop :=
  s.Halts env ∧ ∃ w : World, (s.firstTicket w.now).isSome ∧ (s.resume env w).1 = s'

theorem Strand.Halts.not_later_self {s : Strand} (h : s.Halts env) : ¬ s.Later env s := by
  induction h with
  | ended result => simp [Strand.Later, Strand.firstTicket]
  | exhausted => simp [Strand.Later, Strand.firstTicket]
  | waits _ _ _ ih =>
    rintro ⟨hHalts, w, hTicket, hSelf⟩
    refine ih w hTicket ?_
    rw [hSelf]
    exact ⟨hHalts, w, hTicket, hSelf⟩

instance : Std.Irrefl (Strand.Later env) := ⟨fun _ h => h.1.not_later_self h⟩

theorem Strand.Halts.acc {s : Strand} (h : s.Halts env) : Acc (Strand.Later env) s := by
  induction h with
  | ended result => exact ⟨_, fun s' ⟨_, w, hTicket, _⟩ => by simp [Strand.firstTicket] at hTicket⟩
  | exhausted => exact ⟨_, fun s' ⟨_, w, hTicket, _⟩ => by simp [Strand.firstTicket] at hTicket⟩
  | waits _ _ _ ih =>
    refine ⟨_, ?_⟩
    rintro s' ⟨-, w, hTicket, rfl⟩
    exact ih w hTicket

/-- Of the strands `ss` some have gone on, and some that have ended may be gone: `ss'` are left. -/
def Dwindles (env : Environment) (ss' ss : List Strand) : Prop :=
  Relation.TransGen (Relation.CutExpand (Strand.Later env)) (ss' : Multiset Strand)
    (ss : Multiset Strand)

namespace Dwindles

variable {ss ss' ss'' : List Strand} {s s' : Strand}

theorem trans (h : Dwindles env ss'' ss') (h' : Dwindles env ss' ss) : Dwindles env ss'' ss :=
  Relation.TransGen.trans h h'

theorem head (h : s'.Later env s) (ss : List Strand) : Dwindles env (s' :: ss) (s :: ss) :=
  .single (Relation.cutExpand_single_add h ss)

theorem tail (s : Strand) (h : Dwindles env ss' ss) : Dwindles env (s :: ss') (s :: ss) :=
  Relation.TransGen.lift (({s} : Multiset Strand) + ·)
    (fun _ _ hStep => (Relation.cutExpand_add_left {s}).mpr hStep) _ _ h

theorem set {i : Nat} (hAt : ss[i]? = some s) (h : s'.Later env s) :
    Dwindles env (ss.set i s') ss := by
  induction ss generalizing i with
  | nil => simp at hAt
  | cons t rest ih =>
    cases i with
    | zero =>
      cases hAt
      exact head h rest
    | succ i => exact tail t (ih hAt)

/-- A strand that leaves is one less. -/
theorem leave (s : Strand) (ss : List Strand) : Dwindles env ss (s :: ss) := by
  refine .single ⟨0, s, by simp, ?_⟩
  rw [← Multiset.cons_coe, add_zero, add_comm, Multiset.singleton_add]

theorem of_append (front : List Strand) (h : Dwindles env (front ++ ss') ss) :
    Dwindles env ss' ss := by
  induction front with
  | nil => exact h
  | cons s front ih => exact ih ((leave s (front ++ ss')).trans h)

theorem acc (h : ∀ s ∈ ss, s.Halts env) : Acc (Dwindles env) ss := by
  have hAcc :
      Acc (Relation.TransGen (Relation.CutExpand (Strand.Later env))) (ss : Multiset Strand) :=
    (Relation.acc_of_singleton fun s hs => (h s hs).acc.cutExpand).transGen
  exact InvImage.accessible _ hAcc

end Dwindles

/-! ## Strands that have all started -/

/-- Strands that are under way or have ended well, all of which halt. -/
def Lively (env : Environment) (ss : List Strand) : Prop :=
  ∀ s ∈ ss, s.Halts env ∧ s ≠ .exhausted ∧ ∀ e, s ≠ .ended (.error e)

theorem headOf_halts {r : Strand × World} (h : r.1.Halts env) :
    Progress.Satisfies (fun _ => True) True
      (fun s w => (s, w) = r ∧ s.Halts env ∧ s ≠ .exhausted ∧ ∀ e, s ≠ .ended (.error e))
      (headOf r) := by
  unfold headOf
  split
  · trivial
  · trivial
  · rename_i hError hExhausted
    exact ⟨rfl, h, hExhausted, hError⟩

theorem startAll_halts {strands : List Process}
    (h : ∀ p ∈ strands, ∀ w, (p.start env w).1.Halts env) (w : World) :
    Progress.Satisfies (fun _ => True) True (fun ss _ => Lively env ss)
      (startAll env strands w) := by
  induction strands generalizing w with
  | nil => simp [startAll, Progress.Satisfies, Lively]
  | cons p rest ih =>
    obtain ⟨hHead, hRest⟩ := List.forall_mem_cons.mp h
    rw [startAll_cons]
    refine (headOf_halts (hHead w)).andThen fun s w' hs => ?_
    exact (ih hRest w').andThen fun ss _ hss => List.forall_mem_cons.mpr ⟨hs.2, hss⟩

/-- Strands that go on one after the other: nothing was due, or less is left of them. -/
theorem resumeAll_halts {ss : List Strand} (h : Lively env ss) (w : World) :
    Progress.Satisfies (fun _ => True) True
      (fun ss' w' => Lively env ss' ∧
        (firstTicketOf w.now ss = none ∧ ss' = ss ∧ w' = w ∨ Dwindles env ss' ss))
      (resumeAll env ss w) := by
  induction ss generalizing w with
  | nil =>
    rw [resumeAll]
    exact ⟨h, .inl ⟨rfl, rfl, rfl⟩⟩
  | cons s rest ih =>
    obtain ⟨⟨hHalts, hs⟩, hRest⟩ := List.forall_mem_cons.mp h
    rw [resumeAll_cons]
    refine (headOf_halts (hHalts.resume w)).andThen fun s' w' ⟨hEq, hs'⟩ => ?_
    refine (ih hRest w').andThen fun ss' w'' ⟨hss', hLater⟩ => ?_
    refine ⟨List.forall_mem_cons.mpr ⟨hs', hss'⟩, ?_⟩
    cases hTicket : s.firstTicket w.now with
    | none =>
      rw [hHalts.idle hTicket] at hEq
      cases hEq
      rcases hLater with ⟨hNone, rfl, rfl⟩ | hDwindles
      · refine .inl ⟨?_, rfl, rfl⟩
        rw [firstTicketOf, hTicket, hNone]
      · exact .inr (hDwindles.tail s)
    | some ticket =>
      have hHead : s'.Later env s := ⟨hHalts, w, by rw [hTicket]; rfl, (congrArg Prod.fst hEq).symm⟩
      rcases hLater with ⟨-, rfl, -⟩ | hDwindles
      · exact .inr (.head hHead _)
      · exact .inr ((hDwindles.tail s').trans (.head hHead rest))

/-- Nothing changes where nothing is due. -/
theorem resumeAll_idle {ss : List Strand} (h : Lively env ss) {w : World}
    (hNone : firstTicketOf w.now ss = none) :
    resumeAll env ss w = (.going ss, w) := by
  induction ss with
  | nil => rw [resumeAll]
  | cons s rest ih =>
    obtain ⟨⟨hHalts, hExhausted, hError⟩, hRest⟩ := List.forall_mem_cons.mp h
    have hOwn : s.firstTicket w.now = none ∧ firstTicketOf w.now rest = none := by
      rw [firstTicketOf] at hNone
      cases hs : s.firstTicket w.now <;> cases hr : firstTicketOf w.now rest <;> simp_all
    have hHead : headOf (s, w) = (.going s, w) := by
      unfold headOf
      split <;> simp_all
    rw [resumeAll_cons, hHalts.idle hOwn.1, hHead, Progress.andThen, ih hRest hOwn.2]
    rfl

theorem isSome_nextDueOf_of_waits {ss : List Strand} (h : Lively env ss)
    (hWaits : outcomes? ss = none) :
    (nextDueOf ss).isSome := by
  induction ss with
  | nil => cases hWaits
  | cons s rest ih =>
    obtain ⟨⟨hHalts, hExhausted, hError⟩, hRest⟩ := List.forall_mem_cons.mp h
    rw [isSome_nextDueOf_cons]
    by_cases hEnded : ∃ o, s = .ended (.ok o)
    · obtain ⟨o, rfl⟩ := hEnded
      rw [outcomes?, Option.map_eq_none_iff] at hWaits
      exact .inr (ih hRest hWaits)
    · refine .inl (hHalts.nextDue ?_ hExhausted)
      rintro (e | o) rfl
      · exact hError e rfl
      · exact hEnded ⟨o, rfl⟩

/-! ## Windows -/

/-- The strands of a window: all halt, and the first of them has not ended. -/
structure Slides (env : Environment) (active : List Strand) : Prop where
  halts : ∀ s ∈ active, s.Halts env
  followed : .exhausted ∉ active
  head : HeadWaits active

theorem Slides.nil : Slides env [] := ⟨by simp, by simp, by rintro s rest ⟨⟩⟩

/-- A strand takes its place among those of a window, and those that are delivered leave. -/
theorem Slides.settleIn {active : List Strand} {placed : Strand → List Strand} {r : Strand × World}
    (h : Slides env active) (hPlaced : ∀ t ∈ placed r.1, t = r.1 ∨ t ∈ active) (hr : r.1.Halts env)
    (delivered : List Outcome) :
    Progress.Satisfies (fun _ => True) True
      (fun s w => w = r.2 ∧ Slides env s.2 ∧ ∃ front, placed r.1 = front ++ s.2)
      (Orchestration.settleIn delivered placed r) := by
  obtain ⟨s, w⟩ := r
  by_cases hRun : s = .exhausted
  · subst hRun
    trivial
  have hSettle : Orchestration.settleIn delivered placed (s, w) =
      (deliver delivered (placed s), w) := by
    cases s <;> first | rfl | exact absurd rfl hRun
  rw [hSettle]
  rcases hDeliver : deliver delivered (placed s) with e | ⟨delivered', active'⟩ | _
  · trivial
  · obtain ⟨os, hActive, -⟩ := deliver_going hDeliver
    have hMem : ∀ t ∈ active', t = s ∨ t ∈ active := fun t ht =>
      hPlaced t (hActive ▸ List.mem_append_right _ ht)
    refine ⟨rfl, ⟨fun t ht => ?_, fun hOut => ?_, ?_⟩, _, hActive⟩
    · rcases hMem t ht with rfl | hOld
      · exact hr
      · exact h.halts t hOld
    · rcases hMem _ hOut with hOwn | hOld
      · exact hRun hOwn.symm
      · exact h.followed hOld
    · rintro t rest rfl
      exact deliver_going_head hDeliver
  · trivial

/-- Queued processes start while there is room, and then fewer are queued. -/
theorem fill_halts {limit : Nat} {queue : List Process}
    (hQueue : ∀ p ∈ queue, ∀ w, (p.start env w).1.Halts env) :
    ∀ {delivered : List Outcome} {active : List Strand} (w : World), Slides env active →
      Progress.Satisfies (fun _ => True) True
        (fun s _ => Slides env s.active ∧ (s.queue = [] ∨ limit ≤ s.active.length) ∧
          s.queue <:+ queue ∧ (s.queue = queue → s.active = active))
        (fill env limit delivered active queue w) := by
  induction queue with
  | nil =>
    intro delivered active w h
    rw [fill]
    exact ⟨h, .inl rfl, List.suffix_rfl, fun _ => rfl⟩
  | cons p rest ih =>
    intro delivered active w h
    obtain ⟨hHead, hRest⟩ := List.forall_mem_cons.mp hQueue
    rw [fill_cons]
    split
    · have hPlaced : ∀ t ∈ active ++ [(p.start env w).1], t = (p.start env w).1 ∨ t ∈ active := by
        simp [or_comm]
      refine (h.settleIn hPlaced (hHead w) delivered).andThen fun s w' ⟨_, hs, _⟩ => ?_
      refine (ih hRest w' hs).imp fun s' _ ⟨hSlides, hFull, hSuffix, _⟩ => ?_
      refine ⟨hSlides, hFull, hSuffix.trans (List.suffix_cons p rest), fun hSame => ?_⟩
      have hLength := hSuffix.length_le
      rw [hSame, List.length_cons] at hLength
      omega
    · rename_i hFull
      exact ⟨h, .inr (Nat.le_of_not_lt hFull), List.suffix_rfl, fun _ => rfl⟩

/-- A window that is full, or has nothing queued, starts nothing. -/
theorem fill_idle {limit : Nat} {queue : List Process} {active : List Strand}
    (hFull : queue = [] ∨ limit ≤ active.length) (delivered : List Outcome) (w : World) :
    fill env limit delivered active queue w = (.going ⟨delivered, active, queue⟩, w) := by
  cases queue with
  | nil => rw [fill]
  | cons p rest =>
    rcases hFull with hNone | hFull
    · cases hNone
    · rw [fill_cons, if_neg (Nat.not_lt.mpr hFull)]

/-- Strands of a window that have an answer go on: nothing has happened before the first,
and then less is left. -/
theorem runWakeups_halts {active : List Strand} (h : Slides env active) (delivered : List Outcome)
    (w : World) :
    Progress.Satisfies (fun _ => True) True
      (fun s w' => Slides env s.2 ∧
        (wakeups env w.now 0 active = [] ∧ s.2 = active ∧ w' = w ∨ Dwindles env s.2 active))
      (runWakeups delivered.length delivered active
        (Wakeup.sort (wakeups env w.now 0 active)) w) := by
  have hAll :=
    runWakeups_sort_satisfies env w.now delivered active w (F := fun _ => True) (X := True)
      (M :=
        fun k s w' => Slides env s.2 ∧ (k = 0 ∧ s.2 = active ∧ w' = w ∨ Dwindles env s.2 active))
      ⟨h, .inl ⟨rfl, rfl, rfl⟩⟩ ?_
  · refine hAll.imp fun s w' ⟨hs, hLeft⟩ => ⟨hs, ?_⟩
    rwa [List.length_eq_zero_iff] at hLeft
  · rintro k delivered' active' w' i s ⟨hSlides, hLeft⟩ hAt - hDue
    have hHalts := hSlides.halts s (List.mem_of_getElem? hAt)
    have hPlaced : ∀ t ∈ active'.set i (s.resume env w').1, t = (s.resume env w').1 ∨ t ∈ active' :=
      fun t ht => (List.mem_or_eq_of_mem_set ht).symm
    refine (hSlides.settleIn hPlaced (hHalts.resume w') delivered').imp
      fun s' w'' ⟨_, hs', front, hFront⟩ => ⟨hs', .inr ?_⟩
    refine Dwindles.of_append front ?_
    rw [← hFront]
    cases hTicket : s.firstTicket w'.now with
    | none =>
      -- Nothing was due here after all, which is so only after another strand has gone on.
      have hSame : active'.set i s = active' := by
        obtain ⟨hi, rfl⟩ := List.getElem?_eq_some_iff.mp hAt
        exact List.set_getElem_self hi
      rw [hHalts.idle hTicket, hSame]
      rcases hLeft with ⟨-, -, rfl⟩ | hDwindles
      · rw [hTicket] at hDue
        cases hDue
      · exact hDwindles
    | some ticket =>
      have hSet := Dwindles.set hAt ⟨hHalts, w', by rw [hTicket]; rfl, rfl⟩
      rcases hLeft with ⟨-, rfl, -⟩ | hDwindles
      · exact hSet
      · exact hSet.trans hDwindles

section Join

variable {next : Except RunError (List Outcome) → Process}

/-- Strands that run side by side halt together. -/
theorem Lively.together (hNext : ∀ r w, ((next r).start env w).1.Halts env) {ss : List Strand}
    (h : Lively env ss) (hWaits : outcomes? ss = none) : (Strand.together ss next).Halts env := by
  have hAcc := Dwindles.acc fun s hs => (h s hs).1
  induction hAcc with
  | intro ss _ ih =>
    refine .waits ?_ (fun w hNone => ?_) fun w hDue => ?_
    · rw [Strand.nextDue]
      exact isSome_nextDueOf_of_waits h hWaits
    · rw [Strand.firstTicket] at hNone
      rw [Strand.resume_together, resumeAll_idle h hNone, joinAll, hWaits]
    · rw [Strand.firstTicket] at hDue
      rw [Strand.resume_together]
      refine joinAll_of_satisfies (P := fun r => r.1.Halts env) (resumeAll_halts h w) ?_ ?_ ?_ ?_
      · exact fun e w _ => hNext _ w
      · exact fun w _ => .exhausted
      · exact fun ss os w _ _ => hNext _ w
      · rintro ss' w' ⟨hss', ⟨hNone, -, -⟩ | hDwindles⟩ hWaits'
        · rw [hNone] at hDue
          cases hDue
        · exact ih ss' hDwindles hss' hWaits'

/-- As long as something is queued, something is under way. -/
theorem active_ne_nil {limit : Nat} (hLimit : 0 < limit) {active : List Strand}
    {queue : List Process} (hFull : queue = [] ∨ limit ≤ active.length)
    (hLeft : active = [] → queue ≠ []) : active ≠ [] := by
  rintro rfl
  rcases hFull with hNone | hFull
  · exact hLeft rfl hNone
  · exact absurd hLimit (Nat.not_lt.mpr hFull)

/-- When strands of a window wake and its queue fills the room, the queue gets shorter
or there is less left. -/
theorem Slides.wake {limit : Nat} {queue : List Process}
    (hQueue : ∀ p ∈ queue, ∀ w, (p.start env w).1.Halts env) {active : List Strand}
    (h : Slides env active) (delivered : List Outcome) {w : World}
    (hWoken : wakeups env w.now 0 active ≠ []) :
    Progress.Satisfies (fun _ => True) True
      (fun s _ => Slides env s.active ∧ (s.queue = [] ∨ limit ≤ s.active.length) ∧
        s.queue <:+ queue ∧ (s.queue = queue → Dwindles env s.active active))
      (Progress.andThen
        (runWakeups delivered.length delivered active (Wakeup.sort (wakeups env w.now 0 active)) w)
        fun s w => fill env limit s.1 s.2 queue w) := by
  refine (runWakeups_halts h delivered w).andThen ?_
  rintro s w' ⟨hSlides, hLeft⟩
  refine (fill_halts hQueue w' hSlides).imp ?_
  rintro s' _ ⟨hFilled, hRoom, hSuffix, hKept⟩
  refine ⟨hFilled, hRoom, hSuffix, fun hSame => ?_⟩
  rw [hKept hSame]
  exact hLeft.resolve_left fun hNone => hWoken hNone.1

/-- A window with room halts: its queue gets shorter, or less is left of what is under way. -/
theorem Slides.window {limit : Nat} (hLimit : 0 < limit)
    (hNext : ∀ r w, ((next r).start env w).1.Halts env) {queue : List Process}
    (hQueue : ∀ p ∈ queue, ∀ w, (p.start env w).1.Halts env) {active : List Strand}
    (h : Slides env active) (hSome : active ≠ []) (hFull : queue = [] ∨ limit ≤ active.length)
    (delivered : List Outcome) :
    (Strand.window limit delivered active queue next).Halts env := by
  induction hLength : queue.length using Nat.strong_induction_on
      generalizing queue active delivered with
  | _ n ihQueue =>
    have hAcc := Dwindles.acc h.halts
    induction hAcc generalizing delivered with
    | intro active _ ih =>
      refine .waits ?_ (fun w hNone => ?_) fun w hDue => ?_
      · obtain ⟨s, rest, rfl⟩ := List.exists_cons_of_ne_nil hSome
        rw [Strand.nextDue, isSome_nextDueOf_cons]
        refine .inl ((h.halts s List.mem_cons_self).nextDue (h.head s rest rfl) ?_)
        rintro rfl
        exact h.followed List.mem_cons_self
      · rw [Strand.firstTicket] at hNone
        have hEmpty : (active.isEmpty && queue.isEmpty) = false := by
          simp [hSome]
        rw [Strand.resume_window, wakeups_eq_nil_iff.mpr hNone, Wakeup.sort, List.mergeSort_nil,
          runWakeups, Progress.andThen, fill_idle hFull, joinWindow, hEmpty]
        rfl
      · rw [Strand.firstTicket] at hDue
        have hWoken : wakeups env w.now 0 active ≠ [] := by
          rw [Ne, wakeups_eq_nil_iff]
          exact Option.isSome_iff_ne_none.mp hDue
        rw [Strand.resume_window]
        refine joinWindow_of_satisfies (P :=
          fun r => r.1.Halts env) (h.wake hQueue delivered hWoken) ?_ ?_ ?_ ?_
        · exact fun e w _ => hNext _ w
        · exact fun w _ => .exhausted
        · exact fun delivered w _ => hNext _ w
        · rintro s w ⟨hSlides, hRoom, hSuffix, hDwindles⟩ hLeft
          have hRest : ∀ p ∈ s.queue, ∀ w, (p.start env w).1.Halts env :=
            fun p hp => hQueue p (hSuffix.subset hp)
          have hActive := active_ne_nil hLimit hRoom hLeft
          by_cases hSame : s.queue = queue
          · rw [hSame] at hRoom ⊢
            exact ih s.active (hDwindles hSame) hSlides hActive hRoom s.delivered
          · have hShorter : s.queue.length < n := by
              have hLe := hSuffix.length_le
              have hNe : s.queue.length ≠ queue.length :=
                fun hEq => hSame (hSuffix.eq_of_length hEq)
              omega
            exact ihQueue _ hShorter hRest hSlides hActive hRoom s.delivered rfl

end Join

mutual

/-- Whatever a regular process starts as halts. -/
theorem Process.start_halts : ∀ p : Process, p.Regular → ∀ w, (p.start env w).1.Halts env
  | .done result, _, w => by
    rw [Process.start]
    exact .ended result
  | .exhausted, _, w => by
    rw [Process.start]
    exact .exhausted
  | .call r next, h, w => by
    rw [Process.Regular] at h
    have hNext : ∀ a w, ((next a).start env w).1.Halts env := by
      rintro (e | v)
      · obtain ⟨e', hFail⟩ := h.2 e
        exact Process.start_halts (next (.error e)) (hFail ▸ Process.regular_fail e')
      · exact Process.start_halts (next (.ok v)) (h.1 v)
    rw [Process.start]
    split
    · exact hNext _ _
    · exact .waiting (hNext _)
  | .fork width strands next, h, w => by
    rw [Process.Regular] at h
    obtain ⟨hRoom, hStrands, hOk, hFails⟩ := h
    have hNext : ∀ r w, ((next r).start env w).1.Halts env := by
      rintro (e | os)
      · obtain ⟨e', hFail⟩ := hFails e
        exact Process.start_halts (next (.error e)) (hFail ▸ Process.regular_fail e')
      · exact Process.start_halts (next (.ok os)) (hOk os)
    have hEach := processes_start_halts strands hStrands
    cases width with
    | all =>
      rw [Process.start_fork_all]
      refine joinAll_of_satisfies (P := fun r => r.1.Halts env) (startAll_halts hEach w) ?_ ?_ ?_ ?_
      · exact fun e w _ => hNext _ w
      · exact fun w _ => .exhausted
      · exact fun ss os w _ _ => hNext _ w
      · exact fun ss w hss hWaits => hss.together hNext hWaits
    | window limit =>
      rw [Process.start_fork_window]
      refine joinWindow_of_satisfies (P := fun r => r.1.Halts env) (fill_halts hEach w .nil)
        ?_ ?_ ?_ ?_
      · exact fun e w _ => hNext _ w
      · exact fun w _ => .exhausted
      · exact fun delivered w _ => hNext _ w
      · exact fun s w ⟨hs, hFull, hSuffix, _⟩ hLeft =>
          hs.window hRoom hNext (fun p hp => hEach p (hSuffix.subset hp))
            (active_ne_nil hRoom hFull hLeft) hFull s.delivered

theorem processes_start_halts :
    ∀ ps : List Process, allRegular ps → ∀ p ∈ ps, ∀ w, (p.start env w).1.Halts env
  | [], _ => by simp
  | p :: rest, h => by
    rw [allRegular] at h
    exact List.forall_mem_cons.mpr ⟨Process.start_halts p h.1, processes_start_halts rest h.2⟩

end

/-! ## Whole runs -/

/-- A strand that halts settles, unless it comes to where it is not followed any further. -/
theorem Strand.Halts.exists_settle {s : Strand} (h : s.Halts env) {p : Process}
    (hs : p.Becomes env s) (hFollowed : ¬ p.Becomes env .exhausted) (w : World) :
    ∃ steps result w', s.settle env steps w = some (result, w') := by
  induction h generalizing w with
  | ended result => exact ⟨1, result, w, by rw [Strand.settle]⟩
  | exhausted => exact absurd hs hFollowed
  | @waits s hDue _ _ ih =>
    obtain ⟨due, hDue⟩ := Option.isSome_iff_exists.mp hDue
    have hTicket := Strand.isSome_firstTicket hDue (Nat.le_refl due)
    obtain ⟨steps, result, w', hSettle⟩ :=
      ih { w with now :=
        due } hTicket (hs.resume { w with now := due }) (s.resume env { w with now := due }).2
    exact ⟨steps + 1, result, w', Strand.settle_succ_eq_some.mpr (.inr ⟨due, hDue, hSettle⟩)⟩

/-- A regular process that is followed to its end settles, in any environment and from any world. -/
theorem Process.exists_settle {p : Process} (hRegular : p.Regular)
    (hFollowed : ¬ p.Becomes env .exhausted) (w : World) :
    ∃ steps result w', (p.start env w).1.settle env steps (p.start env w).2 = some (result, w') :=
  (Process.start_halts p hRegular w).exists_settle (.start w) hFollowed _

end Orchestration
