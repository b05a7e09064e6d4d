import Mathlib.Data.List.Forall2
import Orchestration.Proofs.Run.Window
import Orchestration.Run.Interpreter

/-!
# Postconditions of processes

What is sure about the end of a process, whatever its calls take and in whatever order its strands
go on. `Process.Meets` says by recursion on the process that each of its ends satisfies a
postcondition, given what is known about answers (`Answering`); each strand of a fork has a
postcondition of its own.

* `Process.start_meets`, `Strand.resume_meets`: running a process keeps what it meets.
* `Strand.settle_meets`: a strand that settles ends as its postcondition says.
* `Workflow.run_meets`: the same for a whole run, against any caller.
-/

namespace Orchestration

/-- What is said of the end of a process. -/
abbrev Post := Except RunError Outcome → Prop

/-- What is known of the answers to requests. -/
abbrev Answering := Request → Except ActivityError Json → Prop

/-- Nothing is taken for granted of the answers to requests. -/
def anyAnswer : Answering := fun _ _ => True

/-- One of the strands with these postconditions may fail in this way. -/
def MayFail (posts : List Post) (e : RunError) : Prop := ∃ P ∈ posts, P (.error e)

/-- Strands with these postconditions may have these outcomes. -/
abbrev MayEnd (posts : List Post) (os : List Outcome) : Prop :=
  List.Forall₂ (fun P o => P (.ok o)) posts os

variable {A : Answering}

mutual

/-- Every end that the process can come to satisfies the postcondition. -/
def Process.Meets (A : Answering) : Process → Post → Prop
  | .done r, Q => Q r
  | .exhausted, _ => True
  | .call r next, Q => ∀ a, A r a → (next a).Meets A Q
  | .fork _ strands next, Q => ∃ posts, allMeet A strands posts ∧
      (∀ e, MayFail posts e → (next (.error e)).Meets A Q) ∧
      ∀ os, MayEnd posts os → (next (.ok os)).Meets A Q

/-- Each process of a list meets the postcondition at its place. -/
def allMeet (A : Answering) : List Process → List Post → Prop
  | [], posts => posts = []
  | p :: rest, posts => ∃ P Ps, posts = P :: Ps ∧ p.Meets A P ∧ allMeet A rest Ps

end

/-- However a fork ends, going on meets the postcondition. -/
def JoinMeets (A : Answering) (posts : List Post) (next : Except RunError (List Outcome) → Process)
    (Q : Post) : Prop :=
  (∀ e, MayFail posts e → (next (.error e)).Meets A Q) ∧
    ∀ os, MayEnd posts os → (next (.ok os)).Meets A Q

mutual

/-- Every end that the strand can come to satisfies the postcondition. -/
def Strand.Meets (A : Answering) : Strand → Post → Prop
  | .ended r, Q => Q r
  | .exhausted, _ => True
  | .waiting _ _ answer next, Q => (next answer).Meets A Q
  | .together strands next, Q => ∃ posts, strandsMeet A strands posts ∧ JoinMeets A posts next Q
  | .window _ delivered active queue next, Q => ∃ past present future,
      MayEnd past delivered ∧ strandsMeet A active present ∧ allMeet A queue future ∧
        JoinMeets A (past.reverse ++ (present ++ future)) next Q

/-- Each strand of a list meets the postcondition at its place. -/
def strandsMeet (A : Answering) : List Strand → List Post → Prop
  | [], posts => posts = []
  | s :: rest, posts => ∃ P Ps, posts = P :: Ps ∧ s.Meets A P ∧ strandsMeet A rest Ps

end

theorem allMeet_iff {ps : List Process} {posts : List Post} :
    allMeet A ps posts ↔ List.Forall₂ (Process.Meets A) ps posts := by
  induction ps generalizing posts with
  | nil => simp [allMeet]
  | cons p rest ih => simp [allMeet, List.forall₂_cons_left_iff, ih, and_assoc, and_comm]

theorem strandsMeet_iff {ss : List Strand} {posts : List Post} :
    strandsMeet A ss posts ↔ List.Forall₂ (Strand.Meets A) ss posts := by
  induction ss generalizing posts with
  | nil => simp [strandsMeet]
  | cons s rest ih => simp [strandsMeet, List.forall₂_cons_left_iff, ih, and_assoc, and_comm]

theorem Process.meets_fork_iff {width : Width} {strands : List Process}
    {next : Except RunError (List Outcome) → Process} {Q : Post} :
    (Process.fork width strands next).Meets A Q ↔
      ∃ posts, List.Forall₂ (Process.Meets A) strands posts ∧ JoinMeets A posts next Q := by
  rw [Process.Meets]
  simp only [allMeet_iff, JoinMeets]

theorem Strand.meets_exhausted (Q : Post) : Strand.exhausted.Meets A Q := by
  rw [Strand.Meets]
  trivial

theorem Strand.meets_together_iff {strands : List Strand}
    {next : Except RunError (List Outcome) → Process} {Q : Post} :
    (Strand.together strands next).Meets A Q ↔
      ∃ posts, List.Forall₂ (Strand.Meets A) strands posts ∧ JoinMeets A posts next Q := by
  rw [Strand.Meets]
  simp only [strandsMeet_iff]

/-- A window whose strands have these postconditions, counted from the first that was started. -/
def WindowMeets (A : Answering) (posts : List Post) (delivered : List Outcome)
    (active : List Strand) (queue : List Process) : Prop :=
  ∃ past present future, posts = past.reverse ++ (present ++ future) ∧ MayEnd past delivered ∧
    List.Forall₂ (Strand.Meets A) active present ∧ List.Forall₂ (Process.Meets A) queue future

theorem Strand.meets_window_iff {limit : Nat} {delivered : List Outcome} {active : List Strand}
    {queue : List Process} {next : Except RunError (List Outcome) → Process} {Q : Post} :
    (Strand.window limit delivered active queue next).Meets A Q ↔
      ∃ posts, WindowMeets A posts delivered active queue ∧ JoinMeets A posts next Q := by
  rw [Strand.Meets]
  simp only [strandsMeet_iff, allMeet_iff, WindowMeets]
  constructor
  · rintro ⟨past, present, future, hPast, hPresent, hFuture, hJoin⟩
    exact ⟨_, ⟨past, present, future, rfl, hPast, hPresent, hFuture⟩, hJoin⟩
  · rintro ⟨-, ⟨past, present, future, rfl, hPast, hPresent, hFuture⟩, hJoin⟩
    exact ⟨past, present, future, hPast, hPresent, hFuture, hJoin⟩

/-- A fork of strands that all have one postcondition. -/
theorem Process.meets_fork_of_forall {width : Width} {strands : List Process}
    {next : Except RunError (List Outcome) → Process} {P Q : Post}
    (hStrands : ∀ p ∈ strands, p.Meets A P)
    (hFail : ∀ e, P (.error e) → (next (.error e)).Meets A Q)
    (hEnd : ∀ os : List Outcome, (∀ o ∈ os, P (.ok o)) → (next (.ok os)).Meets A Q) :
    (Process.fork width strands next).Meets A Q := by
  refine Process.meets_fork_iff.mpr ⟨strands.map fun _ => P, ?_, ?_, ?_⟩
  · rw [List.forall₂_map_right_iff]
    exact List.forall₂_same.mpr hStrands
  · rintro e ⟨P', hMem, he⟩
    obtain ⟨-, -, rfl⟩ := List.mem_map.mp hMem
    exact hFail e he
  · intro os hos
    refine hEnd os fun o ho => ?_
    rw [MayEnd, List.forall₂_map_left_iff] at hos
    have hEach : List.Forall₂ (fun o _ => P (.ok o) ∧ True) os strands :=
      hos.flip.imp fun _ _ hP => ⟨hP, trivial⟩
    exact ((List.forall₂_and_left os strands).mp hEach).1 o ho

/-- Going on after a success meets what the second part meets. -/
theorem Process.Meets.andThen {P Q : Post} {f : Outcome → Process}
    (hOk : ∀ o, P (.ok o) → (f o).Meets A Q) (hError : ∀ e, P (.error e) → Q (.error e)) :
    ∀ {p : Process}, p.Meets A P → (p.andThen f).Meets A Q
  | .done (.ok o), h => by
    rw [Process.Meets] at h
    exact hOk o h
  | .done (.error e), h => by
    rw [Process.Meets] at h
    rw [Process.andThen, Process.Meets]
    exact hError e h
  | .exhausted, _ => by
    simp [Process.andThen, Process.Meets]
  | .call r next, h => by
    rw [Process.Meets] at h
    rw [Process.andThen, Process.Meets]
    exact fun a ha => Process.Meets.andThen hOk hError (h a ha)
  | .fork width strands next, h => by
    obtain ⟨posts, hStrands, hFail, hEnd⟩ := Process.meets_fork_iff.mp h
    rw [Process.andThen]
    exact Process.meets_fork_iff.mpr ⟨posts, hStrands,
      fun e he => Process.Meets.andThen hOk hError (hFail e he),
      fun os hos => Process.Meets.andThen hOk hError (hEnd os hos)⟩

/-! ## Delivery -/

/-- Delivering what has ended at the head keeps what a window meets. -/
theorem WindowMeets.deliver {posts : List Post} {delivered : List Outcome} {active : List Strand}
    {queue : List Process} (h : WindowMeets A posts delivered active queue) (w : World) :
    Progress.Satisfies (MayFail posts) True
      (fun s _ => WindowMeets A posts s.1 s.2 queue) (deliver delivered active, w) := by
  induction active generalizing delivered with
  | nil => simpa [Orchestration.deliver, Progress.Satisfies] using h
  | cons s rest ih =>
    obtain ⟨past, present, future, rfl, hPast, hPresent, hFuture⟩ := id h
    obtain ⟨P, present, hHead, hRest, rfl⟩ := List.forall₂_cons_left_iff.mp hPresent
    unfold Orchestration.deliver
    split
    · rename_i o rest' heq
      cases heq
      refine ih ⟨P :: past, present, future, by simp, ?_, hRest, hFuture⟩
      exact List.Forall₂.cons hHead hPast
    · rename_i e rest' heq
      cases heq
      exact ⟨P, by simp, hHead⟩
    · exact h

/-- Strands that have all ended well have the outcomes that their postconditions allow. -/
theorem mayEnd_of_outcomes? {ss : List Strand} {posts : List Post} {os : List Outcome}
    (h : List.Forall₂ (Strand.Meets A) ss posts) (ho : outcomes? ss = some os) :
    MayEnd posts os := by
  induction h generalizing os with
  | nil =>
    cases ho
    exact List.Forall₂.nil
  | @cons s P rest Ps hHead hRest ih =>
    unfold outcomes? at ho
    split at ho
    · rename_i heq
      cases heq
    · rename_i o rest' heq
      cases heq
      obtain ⟨os', hOs, rfl⟩ := Option.map_eq_some_iff.mp ho
      exact List.Forall₂.cons hHead (ih hOs)
    · cases ho

/-- When nothing is left to start or to deliver, a window has the outcomes that it may have. -/
theorem WindowMeets.mayEnd {posts : List Post} {delivered : List Outcome}
    (h : WindowMeets A posts delivered [] []) : MayEnd posts delivered.reverse := by
  obtain ⟨past, present, future, rfl, hPast, hPresent, hFuture⟩ := h
  cases hPresent
  cases hFuture
  simpa [MayEnd] using List.rel_reverse hPast

/-- A strand that has gone on meets its postcondition unless it failed as it may. -/
theorem headOf_meets {r : Strand × World} {P : Post} (h : r.1.Meets A P) :
    Progress.Satisfies (fun e => P (.error e)) True (fun s _ => s.Meets A P) (headOf r) := by
  unfold headOf
  split
  · simpa [Strand.Meets, Progress.Satisfies] using h
  · trivial
  · exact h

/-- Strands that go on one after the other keep what each of them meets. -/
theorem headOf_andThen_meets {r : Strand × World} {P : Post} {posts : List Post}
    {later : World → Progress (List Strand) × World} (hHead : r.1.Meets A P)
    (hLater : ∀ w, Progress.Satisfies (MayFail posts) True
      (fun ss _ => List.Forall₂ (Strand.Meets A) ss posts) (later w)) :
    Progress.Satisfies (MayFail (P :: posts)) True
      (fun ss _ => List.Forall₂ (Strand.Meets A) ss (P :: posts))
      (Progress.andThen (headOf r) fun s w =>
        Progress.andThen (later w) fun ss w => (.going (s :: ss), w)) := by
  refine Progress.Satisfies.andThen
    ((headOf_meets hHead).mono fun e he => ⟨P, List.mem_cons_self, he⟩) fun s w hs => ?_
  refine Progress.Satisfies.andThen ((hLater w).mono ?_) fun ss w hss => ?_
  · rintro e ⟨P', hP', he⟩
    exact ⟨P', List.mem_cons_of_mem _ hP', he⟩
  · exact List.Forall₂.cons hs hss

/-- A strand that takes its place in a window keeps what the window meets. -/
theorem WindowMeets.settleIn {posts : List Post} {delivered : List Outcome}
    {placed : Strand → List Strand} {queue : List Process} {r : Strand × World}
    (h : WindowMeets A posts delivered (placed r.1) queue) :
    Progress.Satisfies (MayFail posts) True (fun s _ => WindowMeets A posts s.1 s.2 queue)
      (Orchestration.settleIn delivered placed r) := by
  unfold Orchestration.settleIn
  split
  · trivial
  · exact h.deliver _

/-! ## Starting -/

section Adequacy

variable {env : Environment}

section Join

variable {posts : List Post} {Q : Post} {next : Except RunError (List Outcome) → Process}

theorem JoinMeets.joinAll (hJoin : JoinMeets A posts next Q)
    (hStart : ∀ r w, (next r).Meets A Q → ((next r).start env w).1.Meets A Q)
    {r : Progress (List Strand) × World}
    (h : Progress.Satisfies (MayFail posts) True
      (fun ss _ => List.Forall₂ (Strand.Meets A) ss posts) r) :
    (joinAll env next r).1.Meets A Q := by
  refine joinAll_of_satisfies (P := fun r => r.1.Meets A Q) h ?_ ?_ ?_ ?_
  · exact fun e w he => hStart _ w (hJoin.1 e he)
  · exact fun w _ => Strand.meets_exhausted Q
  · exact fun ss os w hss hOutcomes => hStart _ w (hJoin.2 os (mayEnd_of_outcomes? hss hOutcomes))
  · exact fun ss w hss _ => Strand.meets_together_iff.mpr ⟨posts, hss, hJoin⟩

theorem JoinMeets.joinWindow (hJoin : JoinMeets A posts next Q)
    (hStart : ∀ r w, (next r).Meets A Q → ((next r).start env w).1.Meets A Q) (limit : Nat)
    {r : Progress WindowState × World}
    (h : Progress.Satisfies (MayFail posts) True
      (fun s _ => WindowMeets A posts s.delivered s.active s.queue) r) :
    (joinWindow env limit next r).1.Meets A Q := by
  refine joinWindow_of_satisfies (P := fun r => r.1.Meets A Q) h ?_ ?_ ?_ ?_
  · exact fun e w he => hStart _ w (hJoin.1 e he)
  · exact fun w _ => Strand.meets_exhausted Q
  · exact fun delivered w hWindow => hStart _ w (hJoin.2 _ hWindow.mayEnd)
  · exact fun s w hWindow _ => Strand.meets_window_iff.mpr ⟨posts, hWindow, hJoin⟩

end Join

mutual

/-- Starting a process keeps what it meets. -/
theorem Process.start_meets (hEnv : ∀ w r, A r (env.respond w r).answer) :
    ∀ (p : Process) (Q : Post) (w : World), p.Meets A Q → (p.start env w).1.Meets A Q
  | .done r, Q, w, h => by
    simpa [Process.start, Strand.Meets, Process.Meets] using h
  | .exhausted, Q, w, _ => by
    simp [Process.start, Strand.Meets]
  | .call r next, Q, w, h => by
    rw [Process.Meets] at h
    have hNext := h _ (hEnv w r)
    simp only [Process.start]
    split
    · exact Process.start_meets hEnv _ Q _ hNext
    · simpa [Strand.Meets] using hNext
  | .fork .all strands next, Q, w, h => by
    obtain ⟨posts, hStrands, hJoin⟩ := Process.meets_fork_iff.mp h
    rw [Process.start_fork_all]
    exact hJoin.joinAll (fun r w => Process.start_meets hEnv (next r) Q w)
      (startAll_meets hEnv strands posts w hStrands)
  | .fork (.window limit) strands next, Q, w, h => by
    obtain ⟨posts, hStrands, hJoin⟩ := Process.meets_fork_iff.mp h
    rw [Process.start_fork_window]
    refine hJoin.joinWindow (fun r w => Process.start_meets hEnv (next r) Q w) limit ?_
    exact fill_meets hEnv limit strands posts [] [] w
      ⟨[], [], posts, rfl, List.Forall₂.nil, List.Forall₂.nil, hStrands⟩

/-- Starting processes keeps what each of them meets. -/
theorem startAll_meets (hEnv : ∀ w r, A r (env.respond w r).answer) :
    ∀ (ps : List Process) (posts : List Post) (w : World), List.Forall₂ (Process.Meets A) ps posts →
      Progress.Satisfies (MayFail posts) True (fun ss _ => List.Forall₂ (Strand.Meets A) ss posts)
        (startAll env ps w)
  | [], posts, w, h => by
    cases h
    exact List.Forall₂.nil
  | p :: rest, posts, w, h => by
    obtain ⟨P, Ps, hHead, hRest, rfl⟩ := List.forall₂_cons_left_iff.mp h
    rw [startAll_cons]
    exact headOf_andThen_meets (Process.start_meets hEnv p P w hHead)
      fun w => startAll_meets hEnv rest Ps w hRest

/-- Filling a window keeps what it meets. -/
theorem fill_meets (hEnv : ∀ w r, A r (env.respond w r).answer) (limit : Nat) :
    ∀ (queue : List Process) (posts : List Post) (delivered : List Outcome) (active : List Strand)
      (w : World), WindowMeets A posts delivered active queue →
      Progress.Satisfies (MayFail posts) True
        (fun s _ => WindowMeets A posts s.delivered s.active s.queue)
        (fill env limit delivered active queue w)
  | [], posts, delivered, active, w, h => by
    simpa [fill, Progress.Satisfies] using h
  | p :: rest, posts, delivered, active, w, h => by
    obtain ⟨past, present, future, rfl, hPast, hPresent, hFuture⟩ := id h
    obtain ⟨P, future, hHead, hRest, rfl⟩ := List.forall₂_cons_left_iff.mp hFuture
    rw [fill_cons]
    split
    · have hStart := Process.start_meets hEnv p P w hHead
      refine Progress.Satisfies.andThen (WindowMeets.settleIn ?_) fun s w hs =>
        fill_meets hEnv limit rest _ s.1 s.2 w hs
      exact ⟨past, present ++ [P], future, by simp, hPast,
        List.rel_append hPresent (List.Forall₂.cons hStart List.Forall₂.nil), hRest⟩
    · exact h

end

/-! ## Going on -/

/-- A strand of a window may be replaced by one that meets the same postcondition. -/
theorem WindowMeets.set {posts : List Post} {delivered : List Outcome} {active : List Strand}
    {queue : List Process} {i : Nat} {s : Strand} (h : WindowMeets A posts delivered active queue)
    (hAt : active[i]? = some s) (f : Strand → Strand) (hf : ∀ P, s.Meets A P → (f s).Meets A P) :
    WindowMeets A posts delivered (active.set i (f s)) queue := by
  obtain ⟨past, present, future, rfl, hPast, hPresent, hFuture⟩ := h
  exact ⟨past, present, future, rfl, hPast, forall₂_set hPresent hAt hf, hFuture⟩

mutual

/-- Going on keeps what a strand meets. -/
theorem Strand.resume_meets (hEnv : ∀ w r, A r (env.respond w r).answer) :
    ∀ (s : Strand) (Q : Post) (w : World), s.Meets A Q → (s.resume env w).1.Meets A Q
  | .ended r, Q, w, h => by
    simpa [Strand.resume] using h
  | .exhausted, Q, w, h => by
    simpa [Strand.resume] using h
  | .waiting due ticket answer next, Q, w, h => by
    rw [Strand.resume]
    split
    · exact Process.start_meets hEnv _ Q w (by simpa [Strand.Meets] using h)
    · exact h
  | .together strands next, Q, w, h => by
    obtain ⟨posts, hStrands, hJoin⟩ := Strand.meets_together_iff.mp h
    rw [Strand.resume_together]
    exact hJoin.joinAll (fun r w => Process.start_meets hEnv (next r) Q w)
      (resumeAll_meets hEnv strands posts w hStrands)
  | .window limit delivered active queue next, Q, w, h => by
    obtain ⟨posts, hWindow, hJoin⟩ := Strand.meets_window_iff.mp h
    have hWoken := runWakeups_sort_satisfies env w.now delivered active w
      (F := MayFail posts) (X := True) (M := fun _ s _ => WindowMeets A posts s.1 s.2 queue)
      hWindow fun k delivered' active' w' i s hs hAt hMem _ =>
        (hs.set hAt (fun s => (s.resume env w').1) fun P hP =>
          activeResume_meets hEnv active s hMem P w' hP).settleIn
    rw [Strand.resume_window]
    refine hJoin.joinWindow (fun r w => Process.start_meets hEnv (next r) Q w) limit ?_
    exact hWoken.andThen fun s w' hs => fill_meets hEnv limit queue posts s.1 s.2 w' hs

/-- Going on keeps what each strand of a list meets. -/
theorem resumeAll_meets (hEnv : ∀ w r, A r (env.respond w r).answer) :
    ∀ (ss : List Strand) (posts : List Post) (w : World), List.Forall₂ (Strand.Meets A) ss posts →
      Progress.Satisfies (MayFail posts) True (fun ss _ => List.Forall₂ (Strand.Meets A) ss posts)
        (resumeAll env ss w)
  | [], posts, w, h => by
    cases h
    exact List.Forall₂.nil
  | s :: rest, posts, w, h => by
    obtain ⟨P, Ps, hHead, hRest, rfl⟩ := List.forall₂_cons_left_iff.mp h
    rw [resumeAll_cons]
    exact headOf_andThen_meets (Strand.resume_meets hEnv s P w hHead)
      fun w => resumeAll_meets hEnv rest Ps w hRest

/-- Going on keeps what any strand of a window meets. -/
theorem activeResume_meets (hEnv : ∀ w r, A r (env.respond w r).answer) :
    ∀ (active : List Strand) (s : Strand), s ∈ active → ∀ (P : Post) (w : World),
      s.Meets A P → (s.resume env w).1.Meets A P
  | [], s, hs, P, w, h => by
    cases hs
  | t :: rest, s, hs, P, w, h => by
    rcases List.mem_cons.mp hs with hEq | hs
    · rw [hEq] at h ⊢
      exact Strand.resume_meets hEnv t P w h
    · exact activeResume_meets hEnv rest s hs P w h

end

/-! ## Whole runs -/

/-- A strand that settles ends as its postcondition says. -/
theorem Strand.settle_meets (hEnv : ∀ w r, A r (env.respond w r).answer) {Q : Post} (fuel : Nat) :
    ∀ {s : Strand} {w w' : World} {r : Except RunError Outcome}, s.Meets A Q →
      s.settle env fuel w = some (r, w') → Q r := by
  induction fuel with
  | zero =>
    intro s w w' r _ hSettle
    simp [Strand.settle] at hSettle
  | succ fuel ih =>
    intro s w w' r hMeets hSettle
    rcases Strand.settle_succ_eq_some.mp hSettle with ⟨rfl, -⟩ | ⟨due, -, hRest⟩
    · rwa [Strand.Meets] at hMeets
    · exact ih (Strand.resume_meets hEnv _ Q _ hMeets) hRest

end Adequacy

/-- A run ends as the postcondition of its process says, if the answers are
as it takes them to be. -/
theorem Workflow.run_meets {w : Workflow} {limits : Limits} {caller : Caller} {fuel : Nat}
    {requestId : String} {payload : Json} {Q : Post} {e : Execution}
    (hAnswers : ∀ world r,
      A r ((Environment.mk caller limits.activityTimeout).respond world r).answer)
    (hMeets : (w.process limits fuel requestId payload).Meets A Q)
    (hRun : w.run limits caller fuel requestId payload = some e) : Q e.result := by
  unfold Workflow.run at hRun
  obtain ⟨⟨r, w'⟩, hSettle, rfl⟩ := Option.map_eq_some_iff.mp hRun
  exact Strand.settle_meets hAnswers fuel (Process.start_meets hAnswers _ Q _ hMeets) hSettle

end Orchestration
