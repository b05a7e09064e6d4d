import Orchestration.Proofs.Run.Window

/-!
# One process after another

In time, too, a process that goes on with another one when it ends well does the one and
then the other: the second starts in the world in which the first has ended, at the same
time and after the same calls.

* `Process.EndsIn`: how a process ends that is started in a world, and in which world.
* `Process.start_andThen`, `Strand.resume_andThen`: up to where they wait, the sequence and its
  first part are in step, and then the second part starts.
* `Process.EndsIn.of_andThen`: the end of a sequence.
-/

namespace Orchestration

variable {env : Environment} {f : Outcome → Process}

/-- Started in the first world, the process ends with this result in the second. -/
def Process.EndsIn (env : Environment) (p : Process) (w : World) (result : Except RunError Outcome)
    (w' : World) :
    Prop :=
  ∃ steps, (p.start env w).1.settle env steps (p.start env w).2 = some (result, w')

/-- A strand under way, followed by what comes when it has ended well. -/
def Strand.andThen (s : Strand) (f : Outcome → Process) : Strand :=
  match s with
  | .ended result => .ended result
  | .waiting due ticket answer next => .waiting due ticket answer fun a => (next a).andThen f
  | .together strands next => .together strands fun r => (next r).andThen f
  | .window limit delivered active queue next =>
    .window limit delivered active queue fun r => (next r).andThen f
  | .exhausted => .exhausted

/-- Starts what comes next if the strand has ended well. -/
def startNext (env : Environment) (f : Outcome → Process) : Strand × World → Strand × World
  | (.ended (.ok o), w) => (f o).start env w
  | (s, w) => (s.andThen f, w)

theorem Strand.nextDue_andThen (s : Strand) (f : Outcome → Process) :
    (s.andThen f).nextDue = s.nextDue := by
  cases s <;> rfl

theorem startNext_of_not_ok {s : Strand} (h : ∀ o, s ≠ .ended (.ok o)) (w : World) :
    startNext env f (s, w) = (s.andThen f, w) := by
  unfold startNext
  split
  · rename_i o _ heq
    cases heq
    exact absurd rfl (h o)
  · rename_i heq
    cases heq
    rfl

/-! ## Starting and going on -/

section Join

variable {next : Except RunError (List Outcome) → Process}

theorem joinAll_andThen
    (hNext : ∀ r w, ((next r).andThen f).start env w = startNext env f ((next r).start env w))
    (r : Progress (List Strand) × World) :
    joinAll env (fun r => (next r).andThen f) r = startNext env f (joinAll env next r) := by
  obtain ⟨e | ss | _, w⟩ := r
  · exact hNext _ w
  · rw [joinAll, joinAll]
    cases outcomes? ss with
    | some os => exact hNext _ w
    | none => rfl
  · rfl

theorem joinWindow_andThen
    (hNext : ∀ r w, ((next r).andThen f).start env w = startNext env f ((next r).start env w))
    (limit : Nat) (r : Progress WindowState × World) :
    joinWindow env limit (fun r => (next r).andThen f) r =
      startNext env f (joinWindow env limit next r) := by
  obtain ⟨e | s | _, w⟩ := r
  · exact hNext _ w
  · rw [joinWindow, joinWindow]
    split
    · exact hNext _ w
    · rfl
  · rfl

end Join

theorem Process.start_andThen : ∀ (p : Process) (w : World),
    (p.andThen f).start env w = startNext env f (p.start env w)
  | .done (.ok o), w => by
    rw [Process.andThen, Process.start, startNext]
  | .done (.error e), w => by
    rw [Process.andThen, Process.start]
    rfl
  | .exhausted, w => by
    rw [Process.andThen, Process.start]
    rfl
  | .call r next, w => by
    simp only [Process.andThen, Process.start]
    split
    · exact Process.start_andThen (next _) _
    · rfl
  | .fork .all strands next, w => by
    rw [Process.andThen, Process.start_fork_all, Process.start_fork_all]
    exact joinAll_andThen (fun r w => Process.start_andThen (next r) w) _
  | .fork (.window limit) strands next, w => by
    rw [Process.andThen, Process.start_fork_window, Process.start_fork_window]
    exact joinWindow_andThen (fun r w => Process.start_andThen (next r) w) limit _

theorem Strand.resume_andThen {s : Strand} (h : ∀ o, s ≠ .ended (.ok o)) (w : World) :
    (s.andThen f).resume env w = startNext env f (s.resume env w) := by
  cases s with
  | ended result =>
    rw [Strand.andThen, Strand.resume, startNext_of_not_ok h]
    rfl
  | exhausted =>
    rw [Strand.andThen, Strand.resume]
    rfl
  | waiting due ticket answer next =>
    rw [Strand.andThen, Strand.resume, Strand.resume]
    split
    · exact Process.start_andThen (next answer) w
    · rfl
  | together strands next =>
    rw [Strand.andThen, Strand.resume_together, Strand.resume_together]
    exact joinAll_andThen (fun r w => Process.start_andThen (next r) w) _
  | window limit delivered active queue next =>
    rw [Strand.andThen, Strand.resume_window, Strand.resume_window]
    exact joinWindow_andThen (fun r w => Process.start_andThen (next r) w) limit _

/-! ## Ends -/

/-- How a sequence settles: its first part fails, or the second settles from
where the first has ended. -/
theorem Strand.settle_startNext {result : Except RunError Outcome} {w'' : World} (steps : Nat) :
    ∀ {s : Strand} {w : World},
      (startNext env f (s, w)).1.settle env steps (startNext env f (s, w)).2 = some (result, w'') →
      (∃ e k, result = .error e ∧ s.settle env k w = some (.error e, w'')) ∨
        ∃ o w' k, s.settle env k w = some (.ok o, w') ∧ (f o).EndsIn env w' result w'' := by
  induction steps with
  | zero =>
    intro s w h
    cases h
  | succ steps ih =>
    intro s w h
    by_cases hOk : ∃ o, s = .ended (.ok o)
    · obtain ⟨o, rfl⟩ := hOk
      exact .inr ⟨o, w, 1, rfl, steps + 1, h⟩
    · have hNot : ∀ o, s ≠ .ended (.ok o) := fun o hs => hOk ⟨o, hs⟩
      rw [startNext_of_not_ok hNot] at h
      rcases Strand.settle_succ_eq_some.mp h with ⟨hEnded, rfl⟩ | ⟨due, hDue, hRest⟩
      · -- Of a strand that is under way nothing but a failure is already the end of the sequence.
        cases s with
        | ended r =>
          cases hEnded
          cases result with
          | ok o => exact absurd rfl (hNot o)
          | error e => exact .inl ⟨e, 1, rfl, rfl⟩
        | _ => cases hEnded
      · rw [Strand.resume_andThen hNot] at hRest
        rw [Strand.nextDue_andThen] at hDue
        rcases ih hRest with ⟨e, k, hError, hSettle⟩ | ⟨o, w', k, hSettle, hNext⟩
        · exact .inl ⟨e, k + 1, hError, Strand.settle_succ_eq_some.mpr (.inr ⟨due, hDue, hSettle⟩)⟩
        · exact .inr ⟨o, w', k + 1, Strand.settle_succ_eq_some.mpr (.inr ⟨due, hDue, hSettle⟩),
            hNext⟩

/-- A sequence fails with its first part, or it ends as its second part does where the
first has ended well. -/
theorem Process.EndsIn.of_andThen {p : Process} {w w'' : World} {result : Except RunError Outcome}
    (h : (p.andThen f).EndsIn env w result w'') :
    (∃ e, result = .error e ∧ p.EndsIn env w (.error e) w'') ∨
      ∃ o w', p.EndsIn env w (.ok o) w' ∧ (f o).EndsIn env w' result w'' := by
  obtain ⟨steps, hSettle⟩ := h
  rw [Process.start_andThen] at hSettle
  rcases Strand.settle_startNext steps hSettle with ⟨e, k, hError, hFirst⟩
    | ⟨o, w', k, hFirst, hNext⟩
  · exact .inl ⟨e, hError, k, hFirst⟩
  · exact .inr ⟨o, w', ⟨k, hFirst⟩, hNext⟩

/-- However far a strand is followed, it settles in one way. -/
theorem Strand.settle_unique {steps : Nat} {result result' : Except RunError Outcome}
    {w' w'' : World} :
    ∀ {steps' : Nat} {s : Strand} {w : World}, s.settle env steps w = some (result, w') →
      s.settle env steps' w = some (result', w'') → result = result' ∧ w' = w'' := by
  induction steps with
  | zero =>
    intro steps' s w h
    cases h
  | succ steps ih =>
    intro steps' s w h h'
    cases steps' with
    | zero => cases h'
    | succ steps' =>
      rcases Strand.settle_succ_eq_some.mp h with ⟨rfl, rfl⟩ | ⟨due, hDue, hRest⟩
      · cases h'
        exact ⟨rfl, rfl⟩
      · rcases Strand.settle_succ_eq_some.mp h' with ⟨rfl, -⟩ | ⟨due', hDue', hRest'⟩
        · cases hDue
        · cases hDue.symm.trans hDue'
          exact ih hRest hRest'

theorem Process.EndsIn.unique {p : Process} {w w' w'' : World}
    {result result' : Except RunError Outcome} (h : p.EndsIn env w result w')
    (h' : p.EndsIn env w result' w'') : result = result' ∧ w' = w'' := by
  obtain ⟨steps, hSettle⟩ := h
  obtain ⟨steps', hSettle'⟩ := h'
  exact Strand.settle_unique hSettle hSettle'

/-- What is over has ended where it was started. -/
theorem Process.EndsIn.of_done {result result' : Except RunError Outcome} {w w' : World}
    (h : (Process.done result).EndsIn env w result' w') : result = result' ∧ w = w' := by
  obtain ⟨steps, hSettle⟩ := h
  rw [Process.start] at hSettle
  cases steps with
  | zero => cases hSettle
  | succ steps =>
    cases hSettle
    exact ⟨rfl, rfl⟩

end Orchestration
