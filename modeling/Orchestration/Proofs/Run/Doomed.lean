import Orchestration.Proofs.Run.Cutoff
import Orchestration.Proofs.Run.Postcondition

/-!
# Runs that cannot end well

A fork ends badly once one of its strands has failed, if not at once then when that strand is
delivered. `Strand.Doomed` says so of a strand, `SomeDoomed` of strands that run side by side and
`WindowDoomed` of a window; whatever goes on from there is doomed as well. All of this is read off
postconditions: one of them, `NotOk`, is that of the strand that failed.

* `Strand.Doomed.settle`: a doomed strand does not end well.
* `joinAll_doomed`, `joinWindow_doomed`: nor does a fork, if a failure ends what goes on after it.
-/

namespace Orchestration

/-- Some end, or none. -/
def anyEnd : Post := fun _ => True

/-- No good end. -/
def NotOk : Post := fun r => ∀ o, r ≠ .ok o

theorem notOk_error (e : RunError) : NotOk (.error e) := by
  rintro o ⟨⟩

/-! ## Postconditions that always hold -/

section Any

variable {A : Answering}

mutual

theorem Process.meets_anyEnd : ∀ p : Process, p.Meets A anyEnd
  | .done r => by
    rw [Process.Meets]
    trivial
  | .exhausted => by
    rw [Process.Meets]
    trivial
  | .call r next => by
    rw [Process.Meets]
    exact fun a _ => Process.meets_anyEnd (next a)
  | .fork width strands next => by
    refine Process.meets_fork_iff.mpr ⟨_, processes_meet_anyEnd strands, ?_, ?_⟩
    · exact fun e _ => Process.meets_anyEnd (next (.error e))
    · exact fun os _ => Process.meets_anyEnd (next (.ok os))

theorem processes_meet_anyEnd :
    ∀ ps : List Process, List.Forall₂ (Process.Meets A) ps (ps.map fun _ => anyEnd)
  | [] => .nil
  | p :: rest => .cons (Process.meets_anyEnd p) (processes_meet_anyEnd rest)

end

theorem joinMeets_anyEnd (posts : List Post) (next : Except RunError (List Outcome) → Process) :
    JoinMeets A posts next anyEnd :=
  ⟨fun e _ => Process.meets_anyEnd (next (.error e)), fun os _ =>
    Process.meets_anyEnd (next (.ok os))⟩

theorem mayEnd_anyEnd (os : List Outcome) : MayEnd (os.map fun _ => anyEnd) os := by
  rw [MayEnd, List.forall₂_map_left_iff]
  exact List.forall₂_same.mpr fun _ _ => trivial

mutual

theorem Strand.meets_anyEnd : ∀ s : Strand, s.Meets A anyEnd
  | .ended r => by
    rw [Strand.Meets]
    trivial
  | .exhausted => by
    rw [Strand.Meets]
    trivial
  | .waiting due ticket answer next => by
    rw [Strand.Meets]
    exact Process.meets_anyEnd (next answer)
  | .together strands next =>
    Strand.meets_together_iff.mpr ⟨_, strands_meet_anyEnd strands, joinMeets_anyEnd _ next⟩
  | .window limit delivered active queue next =>
    Strand.meets_window_iff.mpr
      ⟨_, ⟨_, _, _, rfl, mayEnd_anyEnd delivered, strands_meet_anyEnd active,
        processes_meet_anyEnd queue⟩, joinMeets_anyEnd _ next⟩

theorem strands_meet_anyEnd :
    ∀ ss : List Strand, List.Forall₂ (Strand.Meets A) ss (ss.map fun _ => anyEnd)
  | [] => .nil
  | s :: rest => .cons (Strand.meets_anyEnd s) (strands_meet_anyEnd rest)

end

end Any

/-! ## What is doomed -/

/-- The strand does not end well, whatever comes back from its calls. -/
def Strand.Doomed (s : Strand) : Prop := s.Meets anyAnswer NotOk

/-- One of the strands does not end well. -/
def SomeDoomed (ss : List Strand) : Prop :=
  ∃ posts, NotOk ∈ posts ∧ List.Forall₂ (Strand.Meets anyAnswer) ss posts

/-- One of the strands of a window does not end well. -/
def WindowDoomed (delivered : List Outcome) (active : List Strand) (queue : List Process) : Prop :=
  ∃ posts, NotOk ∈ posts ∧ WindowMeets anyAnswer posts delivered active queue

theorem Strand.doomed_error (e : RunError) : (Strand.ended (.error e)).Doomed := by
  rw [Strand.Doomed, Strand.Meets]
  exact notOk_error e

theorem Strand.doomed_exhausted : Strand.exhausted.Doomed := Strand.meets_exhausted NotOk

theorem someDoomed_head {s : Strand} (h : s.Doomed) (rest : List Strand) : SomeDoomed (s :: rest) :=
  ⟨_, List.mem_cons_self, .cons h (strands_meet_anyEnd rest)⟩

theorem someDoomed_tail {rest : List Strand} (h : SomeDoomed rest) (s : Strand) :
    SomeDoomed (s :: rest) := by
  obtain ⟨posts, hMem, hRest⟩ := h
  exact ⟨_, List.mem_cons_of_mem _ hMem, .cons (Strand.meets_anyEnd s) hRest⟩

theorem someDoomed_of_mem {s : Strand} {ss : List Strand} (hs : s ∈ ss) (h : s.Doomed) :
    SomeDoomed ss := by
  induction ss with
  | nil => cases hs
  | cons t rest ih =>
    rcases List.mem_cons.mp hs with rfl | hs
    · exact someDoomed_head h rest
    · exact someDoomed_tail (ih hs) t

theorem windowDoomed_of_active {active : List Strand} (h : SomeDoomed active)
    (delivered : List Outcome) (queue : List Process) : WindowDoomed delivered active queue := by
  obtain ⟨posts, hMem, hActive⟩ := h
  refine ⟨_, ?_, ⟨_, posts, _, rfl, mayEnd_anyEnd delivered, hActive, processes_meet_anyEnd queue⟩⟩
  exact List.mem_append_right _ (List.mem_append_left _ hMem)

/-! ## Joining -/

theorem Process.start_fail {env : Environment} {p : Process} {e : RunError} (h : p = .fail e)
    (w : World) :
    p.start env w = (.ended (.error e), w) := by
  rw [h, Process.fail, Process.start]

/-- Strands one of which does not end well have no good end that they could hand on. -/
theorem not_mayEnd {posts : List Post} (h : NotOk ∈ posts) (os : List Outcome) :
    ¬ MayEnd posts os := by
  intro hEnd
  obtain ⟨o, -, hNot⟩ := exists_of_forall₂ hEnd h
  exact hNot o rfl

theorem joinMeets_notOk {posts : List Post} {next : Except RunError (List Outcome) → Process}
    (h : NotOk ∈ posts) (hFails : FailsOn next) : JoinMeets anyAnswer posts next NotOk := by
  refine ⟨fun e _ => ?_, fun os hEnd => absurd hEnd (not_mayEnd h os)⟩
  obtain ⟨e', hNext⟩ := hFails e
  rw [hNext, Process.fail, Process.Meets]
  exact notOk_error e'

theorem SomeDoomed.together {ss : List Strand} {next : Except RunError (List Outcome) → Process}
    (h : SomeDoomed ss) (hFails : FailsOn next) : (Strand.together ss next).Doomed := by
  obtain ⟨posts, hMem, hStrands⟩ := h
  exact Strand.meets_together_iff.mpr ⟨posts, hStrands, joinMeets_notOk hMem hFails⟩

theorem WindowDoomed.window {delivered : List Outcome} {active : List Strand} {queue : List Process}
    {next : Except RunError (List Outcome) → Process} (h : WindowDoomed delivered active queue)
    (hFails : FailsOn next) (limit : Nat) :
    (Strand.window limit delivered active queue next).Doomed := by
  obtain ⟨posts, hMem, hWindow⟩ := h
  exact Strand.meets_window_iff.mpr ⟨posts, hWindow, joinMeets_notOk hMem hFails⟩

section Join

variable {env : Environment} {next : Except RunError (List Outcome) → Process}

theorem joinAll_doomed (hFails : FailsOn next) {r : Progress (List Strand) × World}
    (h : Progress.Satisfies (fun _ => True) True (fun ss _ => SomeDoomed ss) r) :
    (joinAll env next r).1.Doomed := by
  refine joinAll_of_satisfies (P :=
    fun r => r.1.Doomed) h ?_ (fun _ _ => Strand.doomed_exhausted) ?_ ?_
  · intro e w _
    obtain ⟨e', hNext⟩ := hFails e
    rw [Process.start_fail hNext]
    exact Strand.doomed_error e'
  · rintro ss os w ⟨posts, hMem, hStrands⟩ hOutcomes
    exact absurd (mayEnd_of_outcomes? hStrands hOutcomes) (not_mayEnd hMem os)
  · exact fun ss w hss _ => hss.together hFails

theorem joinWindow_doomed (hFails : FailsOn next) (limit : Nat) {r : Progress WindowState × World}
    (h : Progress.Satisfies (fun _ => True) True
      (fun s _ => WindowDoomed s.delivered s.active s.queue) r) :
    (joinWindow env limit next r).1.Doomed := by
  refine joinWindow_of_satisfies (P :=
    fun r => r.1.Doomed) h ?_ (fun _ _ => Strand.doomed_exhausted) ?_ ?_
  · intro e w _
    obtain ⟨e', hNext⟩ := hFails e
    rw [Process.start_fail hNext]
    exact Strand.doomed_error e'
  · rintro delivered w ⟨posts, hMem, hWindow⟩
    exact absurd hWindow.mayEnd (not_mayEnd hMem _)
  · exact fun s w hs _ => hs.window hFails limit

end Join

/-! ## Going on -/

section Resume

variable {env : Environment}

/-- A doomed strand does not end well. -/
theorem Strand.Doomed.settle {s : Strand} (h : s.Doomed) {fuel : Nat} {w w' : World}
    {r : Except RunError Outcome} (hSettle : s.settle env fuel w = some (r, w')) (o : Outcome) :
    r ≠ .ok o :=
  Strand.settle_meets (fun _ _ => trivial) fuel h hSettle o

theorem WindowDoomed.settleIn {delivered : List Outcome} {placed : Strand → List Strand}
    {queue : List Process} {r : Strand × World} (h : WindowDoomed delivered (placed r.1) queue) :
    Progress.Satisfies (fun _ => True) True (fun s _ => WindowDoomed s.1 s.2 queue)
      (Orchestration.settleIn delivered placed r) := by
  obtain ⟨posts, hMem, hWindow⟩ := h
  exact (hWindow.settleIn.mono fun _ _ => trivial).imp fun s _ hs => ⟨posts, hMem, hs⟩

theorem WindowDoomed.fill {delivered : List Outcome} {active : List Strand} {queue : List Process}
    (h : WindowDoomed delivered active queue) (limit : Nat) (w : World) :
    Progress.Satisfies (fun _ => True) True (fun s _ => WindowDoomed s.delivered s.active s.queue)
      (Orchestration.fill env limit delivered active queue w) := by
  obtain ⟨posts, hMem, hWindow⟩ := h
  have hFill : Progress.Satisfies (MayFail posts) True
      (fun s _ => WindowMeets anyAnswer posts s.delivered s.active s.queue)
      (Orchestration.fill env limit delivered active queue w) :=
    fill_meets (fun _ _ => trivial) limit queue posts delivered active w hWindow
  exact (hFill.mono fun _ _ => trivial).imp fun s _ hs => ⟨posts, hMem, hs⟩

/-- A strand of a window goes on at its place. -/
theorem WindowDoomed.set {delivered : List Outcome} {active : List Strand}
    {queue : List Process} {i : Nat} {s : Strand} (h : WindowDoomed delivered active queue)
    (hAt : active[i]? = some s) (w : World) :
    WindowDoomed delivered (active.set i (s.resume env w).1) queue := by
  obtain ⟨posts, hMem, hWindow⟩ := h
  exact ⟨posts, hMem, hWindow.set hAt (fun s => (s.resume env w).1) fun P hP =>
    Strand.resume_meets (fun _ _ => trivial) s P w hP⟩

theorem WindowDoomed.runWakeups {now before : Nat} {woken active : List Strand}
    {delivered : List Outcome} {queue : List Process} {ws : List Wakeup}
    (h : WindowDoomed delivered active queue)
    (hFit : WakeupsFit env now before woken ws delivered active) (w : World) :
    Progress.Satisfies (fun _ => True) True (fun s _ => WindowDoomed s.1 s.2 queue)
      (Orchestration.runWakeups before delivered active ws w) :=
  runWakeups_satisfies (M := fun _ s _ => WindowDoomed s.1 s.2 queue)
    (fun _ _ _ w' _ _ hs hAt _ _ => (hs.set hAt w').settleIn) ws (k := 0) h hFit

end Resume

end Orchestration
