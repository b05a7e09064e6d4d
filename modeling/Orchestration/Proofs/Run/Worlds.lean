import Orchestration.Proofs.Run.Window

/-!
# What going on does to the world

Up to where it waits, a strand does nothing to the world but to start calls. So what holds of the
world, and holds on when a call starts, holds on when a process starts or a strand goes on.

* `Process.keeps_start`, `Strand.keeps_resume`: what is kept by each call is kept.
* `Process.past_start`, `Strand.past_resume`: calls that were started before are not taken back.
* `Process.now_start`, `Strand.now_resume`: no time passes.
-/

namespace Orchestration

variable {env : Environment} {P : World → Prop}

/-- What holds of the world holds on when a call starts. -/
def KeptByCalls (P : World → Prop) : Prop := ∀ w r, P w → P { w with past := r :: w.past }

/-! ## Strands side by side -/

theorem Progress.keeps_andThen {α β : Type} {r : Progress α × World}
    {f : α → World → Progress β × World} (h : P r.2) (hf : ∀ a w, P w → P (f a w).2) :
    P (Progress.andThen r f).2 := by
  obtain ⟨e | a | _, w⟩ := r
  · exact h
  · exact hf a w h
  · exact h

theorem headOf_world (r : Strand × World) : (headOf r).2 = r.2 := by
  unfold headOf
  split <;> rfl

theorem settleIn_world (delivered : List Outcome) (placed : Strand → List Strand)
    (r : Strand × World) :
    (settleIn delivered placed r).2 = r.2 := by
  unfold settleIn
  split <;> rfl

theorem headOf_andThen_keeps {r : Strand × World} {later : World → Progress (List Strand) × World}
    (h : P r.2) (hLater : ∀ w, P w → P (later w).2) :
    P (Progress.andThen (headOf r) fun s w =>
      Progress.andThen (later w) fun ss w => (.going (s :: ss), w)).2 := by
  refine Progress.keeps_andThen (by rwa [headOf_world]) fun s w hw => ?_
  exact Progress.keeps_andThen (hLater w hw) fun ss w hw => hw

theorem runWakeups_keeps {ws : List Wakeup} (hGo : ∀ wake ∈ ws, ∀ w, P w → P (wake.go w).2)
    (before : Nat) :
    ∀ (delivered : List Outcome) (active : List Strand) (w : World), P w →
      P (runWakeups before delivered active ws w).2 := by
  induction ws with
  | nil =>
    intro delivered active w hw
    rwa [runWakeups]
  | cons wake rest ih =>
    intro delivered active w hw
    obtain ⟨hHead, hRest⟩ := List.forall_mem_cons.mp hGo
    rw [runWakeups_cons]
    refine Progress.keeps_andThen ?_ fun s w hw => ih hRest s.1 s.2 w hw
    rw [settleIn_world]
    exact hHead w hw

section Join

variable {next : Except RunError (List Outcome) → Process}

theorem joinAll_keeps (hNext : ∀ x w, P w → P ((next x).start env w).2)
    {r : Progress (List Strand) × World} (h : P r.2) : P (joinAll env next r).2 := by
  obtain ⟨e | ss | _, w⟩ := r
  · exact hNext _ w h
  · rw [joinAll]
    cases outcomes? ss with
    | some os => exact hNext _ w h
    | none => exact h
  · exact h

theorem joinWindow_keeps (limit : Nat) (hNext : ∀ x w, P w → P ((next x).start env w).2)
    {r : Progress WindowState × World} (h : P r.2) : P (joinWindow env limit next r).2 := by
  obtain ⟨e | s | _, w⟩ := r
  · exact hNext _ w h
  · rw [joinWindow]
    split
    · exact hNext _ w h
    · exact h
  · exact h

end Join

/-! ## Starting and going on -/

mutual

theorem Process.keeps_start (hCalls : KeptByCalls P) : ∀ (p : Process) (w : World), P w →
    P (p.start env w).2
  | .done result, w, hw => by
    rwa [Process.start]
  | .exhausted, w, hw => by
    rwa [Process.start]
  | .call r next, w, hw => by
    rw [Process.start]
    split
    · exact Process.keeps_start hCalls (next _) _ (hCalls w r hw)
    · exact hCalls w r hw
  | .fork .all strands next, w, hw => by
    rw [Process.start_fork_all]
    exact joinAll_keeps (fun x w => Process.keeps_start hCalls (next x) w)
      (startAll_keeps hCalls strands w hw)
  | .fork (.window limit) strands next, w, hw => by
    rw [Process.start_fork_window]
    exact joinWindow_keeps limit (fun x w => Process.keeps_start hCalls (next x) w)
      (fill_keeps hCalls limit strands [] [] w hw)

theorem startAll_keeps (hCalls : KeptByCalls P) : ∀ (ps : List Process) (w : World), P w →
    P (startAll env ps w).2
  | [], w, hw => by
    rwa [startAll]
  | p :: rest, w, hw => by
    rw [startAll_cons]
    exact headOf_andThen_keeps (Process.keeps_start hCalls p w hw) fun w =>
      startAll_keeps hCalls rest w

theorem fill_keeps (hCalls : KeptByCalls P) (limit : Nat) :
    ∀ (queue : List Process) (delivered : List Outcome) (active : List Strand) (w : World), P w →
      P (fill env limit delivered active queue w).2
  | [], delivered, active, w, hw => by
    rwa [fill]
  | p :: rest, delivered, active, w, hw => by
    rw [fill_cons]
    split
    · refine Progress.keeps_andThen ?_ fun s w => fill_keeps hCalls limit rest s.1 s.2 w
      rw [settleIn_world]
      exact Process.keeps_start hCalls p w hw
    · exact hw

end

mutual

theorem Strand.keeps_resume (hCalls : KeptByCalls P) : ∀ (s : Strand) (w : World), P w →
    P (s.resume env w).2
  | .ended result, w, hw => by
    rwa [Strand.resume]
  | .exhausted, w, hw => by
    rwa [Strand.resume]
  | .waiting due ticket answer next, w, hw => by
    rw [Strand.resume]
    split
    · exact Process.keeps_start hCalls _ w hw
    · exact hw
  | .together active next, w, hw => by
    rw [Strand.resume_together]
    exact joinAll_keeps (fun x w => Process.keeps_start hCalls (next x) w)
      (resumeAll_keeps hCalls active w hw)
  | .window limit delivered active queue next, w, hw => by
    rw [Strand.resume_window]
    refine joinWindow_keeps limit (fun x w => Process.keeps_start hCalls (next x) w)
      (Progress.keeps_andThen ?_ fun s w => fill_keeps hCalls limit queue s.1 s.2 w)
    refine runWakeups_keeps (fun wake hWake => ?_) _ delivered active w hw
    obtain ⟨s, hs, -, hGo, -, -⟩ := mem_wakeups ((Wakeup.sort_perm _).mem_iff.mp hWake)
    rw [hGo]
    exact activeResume_keeps hCalls active s hs

theorem resumeAll_keeps (hCalls : KeptByCalls P) : ∀ (ss : List Strand) (w : World), P w →
    P (resumeAll env ss w).2
  | [], w, hw => by
    rwa [resumeAll]
  | s :: rest, w, hw => by
    rw [resumeAll_cons]
    exact headOf_andThen_keeps (Strand.keeps_resume hCalls s w hw) fun w =>
      resumeAll_keeps hCalls rest w

/-- `Strand.keeps_resume` for any of the strands of a window. -/
theorem activeResume_keeps (hCalls : KeptByCalls P) : ∀ (active : List Strand) (s : Strand),
    s ∈ active → ∀ w : World, P w → P (s.resume env w).2
  | [], s, hs, w, hw => by cases hs
  | t :: rest, s, hs, w, hw => by
    rcases List.mem_cons.mp hs with hEq | hs
    · rw [hEq]
      exact Strand.keeps_resume hCalls t w hw
    · exact activeResume_keeps hCalls rest s hs w hw

end

/-! ## Calls are not taken back -/

theorem keptByCalls_past (past : List Request) : KeptByCalls fun w => past <:+ w.past :=
  fun _ r h => h.trans (List.suffix_cons r _)

/-- What a process does comes after the calls that were made before. -/
theorem Process.past_start (p : Process) (w : World) : w.past <:+ (p.start env w).2.past :=
  Process.keeps_start (keptByCalls_past w.past) p w List.suffix_rfl

theorem startAll_past (ps : List Process) (w : World) : w.past <:+ (startAll env ps w).2.past :=
  startAll_keeps (keptByCalls_past w.past) ps w List.suffix_rfl

theorem fill_past (limit : Nat) (queue : List Process) (delivered : List Outcome)
    (active : List Strand) (w : World) :
    w.past <:+ (fill env limit delivered active queue w).2.past :=
  fill_keeps (keptByCalls_past w.past) limit queue delivered active w List.suffix_rfl

theorem Strand.past_resume (s : Strand) (w : World) : w.past <:+ (s.resume env w).2.past :=
  Strand.keeps_resume (keptByCalls_past w.past) s w List.suffix_rfl

theorem resumeAll_past (ss : List Strand) (w : World) : w.past <:+ (resumeAll env ss w).2.past :=
  resumeAll_keeps (keptByCalls_past w.past) ss w List.suffix_rfl

/-! ## No time passes -/

theorem keptByCalls_now (now : Nat) : KeptByCalls fun w => w.now = now := fun _ _ h => h

theorem Process.now_start (p : Process) (w : World) : (p.start env w).2.now = w.now :=
  Process.keeps_start (keptByCalls_now w.now) p w rfl

theorem Strand.now_resume (s : Strand) (w : World) : (s.resume env w).2.now = w.now :=
  Strand.keeps_resume (keptByCalls_now w.now) s w rfl

end Orchestration
