import Mathlib.Logic.Relation
import Orchestration.Proofs.Basic
import Orchestration.Proofs.Run.Window

/-!
# What a strand at rest came from

Between two answers a strand waits for a call or for strands inside it. `Process.rests_of_becomes`
finds the call or the fork of its process that it waits in, and how the strands inside stand to
those of the fork: some are delivered, some are under way, and the others are queued. At most as
many are under way as the window of the fork allows, and none is queued while there is room.
-/

namespace Orchestration

/-! ## Where a process gets to -/

/-- One answer to what the process waits for leads to the other process. -/
inductive Process.Leads : Process → Process → Prop
  | call (r : Request) (next : Except ActivityError Json → Process)
    (answer : Except ActivityError Json) :
    Leads (.call r next) (next answer)
  | fork (width : Width) (strands : List Process) (next : Except RunError (List Outcome) → Process)
    (result : Except RunError (List Outcome)) : Leads (.fork width strands next) (next result)

/-- Some answers lead from one process to the other. -/
def Process.ComesTo : Process → Process → Prop := Relation.ReflTransGen Process.Leads

theorem Process.ComesTo.refl (p : Process) : p.ComesTo p := Relation.ReflTransGen.refl

theorem Process.ComesTo.answered {p : Process} {r : Request}
    {next : Except ActivityError Json → Process} (h : p.ComesTo (.call r next))
    (answer : Except ActivityError Json) : p.ComesTo (next answer) :=
  Relation.ReflTransGen.tail h (.call r next answer)

theorem Process.ComesTo.joined {p : Process} {width : Width} {strands : List Process}
    {next : Except RunError (List Outcome) → Process} (h : p.ComesTo (.fork width strands next))
    (result : Except RunError (List Outcome)) : p.ComesTo (next result) :=
  Relation.ReflTransGen.tail h (.fork width strands next result)

/-- From a sequence, an answer leads on in its first part, or into its second
when the first is done. -/
theorem Process.ComesTo.of_andThen {p q : Process} {f : Outcome → Process}
    (h : (p.andThen f).ComesTo q) :
    (∃ p', p.ComesTo p' ∧ q = p'.andThen f) ∨ ∃ o, p.ComesTo (.done (.ok o)) ∧ (f o).ComesTo q := by
  -- Along the way: it stays in the first part until that is done, and then never leaves the second.
  induction h with
  | refl => exact .inl ⟨p, .refl p, rfl⟩
  | tail _ hStep ih =>
    rcases ih with ⟨p', hp', rfl⟩ | ⟨o, ho, hf⟩
    · cases p' with
      | done result =>
        cases result with
        | error e => cases hStep
        | ok o => exact .inr ⟨o, hp', Relation.ReflTransGen.single hStep⟩
      | call r next =>
        cases hStep with
        | call _ _ answer => exact .inl ⟨next answer, hp'.answered answer, rfl⟩
      | fork width strands next =>
        cases hStep with
        | fork _ _ _ result => exact .inl ⟨next result, hp'.joined result, rfl⟩
      | exhausted => cases hStep
    · exact .inr ⟨o, ho, Relation.ReflTransGen.tail hf hStep⟩

/-- A fork in a sequence is one of its first part or one of its second. -/
theorem Process.ComesTo.fork_of_andThen {p : Process} {f : Outcome → Process} {width : Width}
    {strands : List Process} {next : Except RunError (List Outcome) → Process}
    (h : (p.andThen f).ComesTo (.fork width strands next)) :
    (∃ next', p.ComesTo (.fork width strands next')) ∨
      ∃ o, p.ComesTo (.done (.ok o)) ∧ (f o).ComesTo (.fork width strands next) := by
  rcases h.of_andThen with ⟨p', hp', hFork⟩ | hSecond
  · cases p' with
    | done result =>
      cases result with
      | error e => cases hFork
      | ok o =>
        have hFirst : f o = .fork width strands next := hFork.symm
        exact .inr ⟨o, hp', hFirst ▸ .refl (f o)⟩
    | call r next' => cases hFork
    | fork width' strands' next' =>
      cases hFork
      exact .inl ⟨next', hp'⟩
    | exhausted => cases hFork
  · exact .inr hSecond

/-! ## Strands at rest -/

variable {env : Environment}

/-- The strand is what becomes of the process: it was started, and then it went on some times. -/
inductive Process.Becomes (env : Environment) (p : Process) : Strand → Prop
  | start (world : World) : p.Becomes env (p.start env world).1
  | resume {s : Strand} (h : p.Becomes env s) (world : World) : p.Becomes env (s.resume env world).1

/-- A fork under way: `past` are the strands whose results are delivered, `present` those that are
under way and the rest is queued. -/
def Forks (env : Environment) (strands : List Process) (delivered : List Outcome)
    (active : List Strand) (queue : List Process) : Prop :=
  ∃ past present, strands = past ++ (present ++ queue) ∧ past.length = delivered.length ∧
    List.Forall₂ (Process.Becomes env) present active

/-- The strand is a fork of the process under way, or the process has no fork under way. -/
inductive Process.Rests (env : Environment) (p : Process) : Strand → Prop
  | ended (result : Except RunError Outcome) : p.Rests env (.ended result)
  | exhausted : p.Rests env .exhausted
  | waiting {r : Request} {next : Except ActivityError Json → Process}
    (h : p.ComesTo (.call r next)) (due ticket : Nat) (answer : Except ActivityError Json) :
    p.Rests env (.waiting due ticket answer next)
  | together {strands : List Process} {active : List Strand}
    {next : Except RunError (List Outcome) → Process} (h : p.ComesTo (.fork .all strands next))
    (hForks : Forks env strands [] active []) : p.Rests env (.together active next)
  | window {limit : Nat} {strands queue : List Process} {delivered : List Outcome}
    {active : List Strand} {next : Except RunError (List Outcome) → Process}
    (h : p.ComesTo (.fork (.window limit) strands next))
      (hForks : Forks env strands delivered active queue)
    (hRoom : active.length ≤ limit) (hFull : queue = [] ∨ limit ≤ active.length) :
    p.Rests env (.window limit delivered active queue next)

/-! ## Starting -/

/-- One of the processes ends with this failure. -/
def OneFails (env : Environment) (strands : List Process) (e : RunError) : Prop :=
  ∃ p ∈ strands, p.Becomes env (.ended (.error e))

/-- One of the processes is not followed to its end. -/
def OneStops (env : Environment) (strands : List Process) : Prop :=
  ∃ p ∈ strands, p.Becomes env .exhausted

/-- A strand that has gone on, in front of others that go on after it. -/
theorem headOf_andThen_becomes {p : Process} {rest : List Process} {r : Strand × World}
    {later : World → Progress (List Strand) × World} (hHead : p.Becomes env r.1)
    (hLater : ∀ w, Progress.Satisfies (OneFails env rest) (OneStops env rest)
      (fun active _ => List.Forall₂ (Process.Becomes env) rest active) (later w)) :
    Progress.Satisfies (OneFails env (p :: rest)) (OneStops env (p :: rest))
      (fun active _ => List.Forall₂ (Process.Becomes env) (p :: rest) active)
      (Progress.andThen (headOf r) fun s w => Progress.andThen (later w) fun ss w =>
        (.going (s :: ss), w)) := by
  unfold headOf
  split
  · exact ⟨p, List.mem_cons_self, hHead⟩
  · exact ⟨p, List.mem_cons_self, hHead⟩
  · rename_i s w _ _
    have hRest := hLater w
    rw [Progress.andThen]
    generalize later w = after at hRest
    obtain ⟨e | ss | _, w'⟩ := after
    · obtain ⟨q, hq, hEnds⟩ := hRest
      exact ⟨q, List.mem_cons_of_mem _ hq, hEnds⟩
    · exact List.Forall₂.cons hHead hRest
    · obtain ⟨q, hq, hStops⟩ := hRest
      exact ⟨q, List.mem_cons_of_mem _ hq, hStops⟩

theorem startAll_becomes (env : Environment) (strands : List Process) (world : World) :
    Progress.Satisfies (OneFails env strands) (OneStops env strands)
      (fun active _ => List.Forall₂ (Process.Becomes env) strands active)
      (startAll env strands world) := by
  induction strands generalizing world with
  | nil => exact List.Forall₂.nil
  | cons p rest ih =>
    rw [startAll_cons]
    exact headOf_andThen_becomes (.start world) ih

/-- Delivery turns strands under way into delivered ones, and makes room. -/
theorem Forks.settleIn {strands queue : List Process} {delivered : List Outcome} {limit : Nat}
    (placed : Strand → List Strand) (r : Strand × World)
    (h : Forks env strands delivered (placed r.1) queue) (hRoom : (placed r.1).length ≤ limit) :
    Progress.Satisfies (fun _ => True) True
      (fun s _ => Forks env strands s.1 s.2 queue ∧ s.2.length ≤ limit)
        (settleIn delivered placed r) := by
  rcases hSettle :
    Orchestration.settleIn delivered placed r with ⟨e | ⟨delivered', active'⟩ | _, world⟩
  · trivial
  · obtain ⟨os, hActive, rfl⟩ := deliver_going (deliver_of_settleIn hSettle)
    obtain ⟨past, present, rfl, hPast, hPresent⟩ := h
    rw [hActive] at hPresent hRoom
    have hEnded := List.forall₂_take_append present _ _ hPresent
    have hRest := List.forall₂_drop_append present _ _ hPresent
    have hCount : (present.take os.length).length = os.length := by
      simpa using hEnded.length_eq
    refine ⟨⟨past ++ present.take os.length, present.drop os.length, ?_, ?_, ?_⟩, ?_⟩
    · rw [List.append_assoc past, ← List.append_assoc (present.take _), List.take_append_drop]
    · simp only [List.length_append, List.length_reverse, hPast, hCount]
      omega
    · simpa using hRest
    · simp only [List.length_append, List.length_map] at hRoom
      exact Nat.le_trans (Nat.le_add_left _ _) hRoom
  · trivial

theorem fill_forks {strands : List Process} (limit : Nat) (queue : List Process) :
    ∀ {delivered : List Outcome} {active : List Strand} (world : World),
      Forks env strands delivered active queue → active.length ≤ limit →
      Progress.Satisfies (fun _ => True) True
        (fun s _ => Forks env strands s.delivered s.active s.queue ∧ s.active.length ≤ limit ∧
          (s.queue = [] ∨ limit ≤ s.active.length))
        (fill env limit delivered active queue world) := by
  induction queue with
  | nil =>
    intro delivered active world h hRoom
    exact ⟨h, hRoom, .inl rfl⟩
  | cons p rest ih =>
    intro delivered active world h hRoom
    rw [fill_cons]
    split
    · rename_i hFree
      obtain ⟨past, present, rfl, hPast, hPresent⟩ := h
      have hNew : Forks env (past ++ (present ++ p :: rest)) delivered
          (active ++ [(p.start env world).1]) rest := by
        refine ⟨past, present ++ [p], by simp, hPast, ?_⟩
        exact List.rel_append hPresent (List.Forall₂.cons (.start world) List.Forall₂.nil)
      have hPlaced : (active ++ [(p.start env world).1]).length ≤ limit := by
        simp only [List.length_append, List.length_singleton]
        omega
      have hSettled := Forks.settleIn (fun s => active ++ [s]) (p.start env world) hNew hPlaced
      exact hSettled.andThen fun s world' hs => ih world' hs.1 hs.2
    · rename_i hFull
      exact ⟨h, hRoom, .inr (Nat.le_of_not_lt hFull)⟩

section Join

variable {p : Process} {strands : List Process} {next : Except RunError (List Outcome) → Process}
variable {F : RunError → Prop} {X : Prop}

theorem Process.ComesTo.joinAll (h : p.ComesTo (.fork .all strands next))
    (hStart : ∀ result w, p.Rests env ((next result).start env w).1)
    {r : Progress (List Strand) × World}
    (hActive : Progress.Satisfies F X (fun active _ => Forks env strands [] active []) r) :
    p.Rests env (joinAll env next r).1 := by
  refine joinAll_of_satisfies (P := fun r => p.Rests env r.1) hActive ?_ ?_ ?_ ?_
  · exact fun e w _ => hStart _ w
  · exact fun w _ => .exhausted
  · exact fun active os w _ _ => hStart _ w
  · exact fun active w hForks _ => .together h hForks

theorem Process.ComesTo.joinWindow {limit : Nat}
    (h : p.ComesTo (.fork (.window limit) strands next))
    (hStart : ∀ result w, p.Rests env ((next result).start env w).1)
    {r : Progress WindowState × World} (hFilled : Progress.Satisfies (fun _ => True) True
      (fun s _ => Forks env strands s.delivered s.active s.queue ∧ s.active.length ≤ limit ∧
        (s.queue = [] ∨ limit ≤ s.active.length)) r) :
    p.Rests env (joinWindow env limit next r).1 := by
  refine joinWindow_of_satisfies (P := fun r => p.Rests env r.1) hFilled ?_ ?_ ?_ ?_
  · exact fun e w _ => hStart _ w
  · exact fun w _ => .exhausted
  · exact fun delivered w _ => hStart _ w
  · exact fun s w hs _ => .window h hs.1 hs.2.1 hs.2.2

end Join

/-- Up to where it waits, a process gets to a call or a fork of its own. -/
theorem Process.start_rests {p : Process} : ∀ {q : Process}, p.ComesTo q → ∀ world : World,
    p.Rests env (q.start env world).1
  -- What is answered at once leads on to a process that `p` comes to as well.
  | .done result, _, world => by
    rw [Process.start]
    exact .ended result
  | .exhausted, _, world => by
    rw [Process.start]
    exact .exhausted
  | .call r next, h, world => by
    rw [Process.start]
    split
    · exact Process.start_rests (h.answered _) _
    · exact .waiting h _ _ _
  | .fork .all strands next, h, world => by
    have hStart := (startAll_becomes env strands world).imp fun active _ hActive =>
      (⟨[], strands, by simp, rfl, hActive⟩ : Forks env strands [] active [])
    rw [Process.start_fork_all]
    exact h.joinAll (fun result w => Process.start_rests (h.joined result) w) hStart
  | .fork (.window limit) strands next, h, world => by
    have hEmpty : Forks env strands [] [] strands := ⟨[], [], rfl, rfl, List.Forall₂.nil⟩
    rw [Process.start_fork_window]
    exact h.joinWindow (fun result w => Process.start_rests (h.joined result) w)
      (fill_forks limit strands world hEmpty (Nat.zero_le limit))

/-! ## Going on -/

theorem resumeAll_becomes {strands : List Process} {active : List Strand}
    (h : List.Forall₂ (Process.Becomes env) strands active) (world : World) :
    Progress.Satisfies (OneFails env strands) (OneStops env strands)
      (fun active' _ => List.Forall₂ (Process.Becomes env) strands active')
      (resumeAll env active world) := by
  induction h generalizing world with
  | nil => exact List.Forall₂.nil
  | cons hHead _ ih =>
    rw [resumeAll_cons]
    exact headOf_andThen_becomes (hHead.resume world) ih

/-- A strand under way may go on at its place. -/
theorem Forks.set {strands queue : List Process} {delivered : List Outcome} {active : List Strand}
    {i : Nat} {s : Strand} (h : Forks env strands delivered active queue)
    (hAt : active[i]? = some s) (world : World) :
    Forks env strands delivered (active.set i (s.resume env world).1) queue := by
  obtain ⟨past, present, hStrands, hPast, hPresent⟩ := h
  have hSet := forall₂_set hPresent.flip hAt fun p (hp : p.Becomes env s) => hp.resume world
  exact ⟨past, present, hStrands, hPast, hSet.flip⟩

/-- A strand at rest goes on up to where it waits again. -/
theorem Process.Rests.resume {p : Process} {s : Strand} (h : p.Rests env s) (world : World) :
    p.Rests env (s.resume env world).1 := by
  cases h with
  | ended result =>
    rw [Strand.resume]
    exact .ended result
  | exhausted =>
    rw [Strand.resume]
    exact .exhausted
  | waiting h due ticket answer =>
    rw [Strand.resume]
    split
    · exact Process.start_rests (h.answered _) _
    · exact .waiting h due ticket answer
  | @together strands active next h hForks =>
    obtain ⟨past, present, hStrands, hPast, hPresent⟩ := hForks
    have hResume := (resumeAll_becomes hPresent world).imp fun active _ hActive =>
      (⟨past, present, hStrands, hPast, hActive⟩ : Forks env strands [] active [])
    rw [Strand.resume_together]
    exact h.joinAll (fun result w => Process.start_rests (h.joined result) w) hResume
  | @window limit strands queue delivered active next h hForks hRoom _ =>
    -- Strands with answers go on one by one and keep the fork, then the queue
    -- fills the room they made.
    have hWoken := runWakeups_sort_satisfies env world.now delivered active world
      (F := fun _ => True) (X := True)
      (M := fun _ s _ => Forks env strands s.1 s.2 queue ∧ s.2.length ≤ limit) ⟨hForks, hRoom⟩
      fun k delivered' active' world' i s hs hAt _ _ =>
        Forks.settleIn _ _ (hs.1.set hAt world') (by simpa using hs.2)
    rw [Strand.resume_window]
    exact h.joinWindow (fun result w => Process.start_rests (h.joined result) w)
      (hWoken.andThen fun s w hs => fill_forks limit queue w hs.1 hs.2)

/-- Whatever becomes of a process rests in one of its calls or forks. -/
theorem Process.rests_of_becomes {p : Process} {s : Strand} (h : p.Becomes env s) :
    p.Rests env s := by
  induction h with
  | start world => exact Process.start_rests (.refl p) world
  | resume _ world ih => exact ih.resume world

/-! ## Ends -/

/-- A fork that starts all its strands at once waits for them, or one of them has failed or was not
followed, or all have ended well. -/
theorem Process.Becomes.of_fork_all {strands : List Process}
    {next : Except RunError (List Outcome) → Process} {t : Strand}
    (h : (Process.fork .all strands next).Becomes env t) :
    (∃ active, List.Forall₂ (Process.Becomes env) strands active ∧ t = .together active next) ∨
      OneStops env strands ∧ t = .exhausted ∨ (∃ os, (next (.ok os)).Becomes env t) ∨
      ∃ e, OneFails env strands e ∧ (next (.error e)).Becomes env t := by
  have hJoin : ∀ {r}, Progress.Satisfies (OneFails env strands) (OneStops env strands)
      (fun active _ => List.Forall₂ (Process.Becomes env) strands active) r →
      (∃ active, List.Forall₂ (Process.Becomes env) strands active ∧
        (joinAll env next r).1 = .together active next) ∨
      OneStops env strands ∧ (joinAll env next r).1 = .exhausted ∨
      (∃ os, (next (.ok os)).Becomes env (joinAll env next r).1) ∨
      ∃ e, OneFails env strands e ∧ (next (.error e)).Becomes env (joinAll env next r).1 := by
    rintro ⟨e | active | _, w⟩ hr
    · exact .inr (.inr (.inr ⟨e, hr, .start w⟩))
    · rw [joinAll]
      split
      · exact .inr (.inr (.inl ⟨_, .start w⟩))
      · exact .inl ⟨active, hr, rfl⟩
    · exact .inr (.inl ⟨hr, rfl⟩)
  induction h with
  | start w =>
    rw [Process.start_fork_all]
    exact hJoin (startAll_becomes env strands w)
  | resume _ w ih =>
    rcases ih with ⟨active, hActive, rfl⟩ | ⟨hStops, rfl⟩ | ⟨os, hOwn⟩ | ⟨e, hFails, hOwn⟩
    · rw [Strand.resume_together]
      exact hJoin (resumeAll_becomes hActive w)
    · rw [Strand.resume]
      exact .inr (.inl ⟨hStops, rfl⟩)
    · exact .inr (.inr (.inl ⟨os, hOwn.resume w⟩))
    · exact .inr (.inr (.inr ⟨e, hFails, hOwn.resume w⟩))

/-- What has ended stays as it is. -/
theorem Process.becomes_done {result : Except RunError Outcome} {t : Strand}
    (h : (Process.done result).Becomes env t) : t = .ended result := by
  induction h with
  | start w => rw [Process.start]
  | resume _ w ih => rw [ih, Strand.resume]

/-- A process that settles has become what it ends with. -/
theorem Process.Becomes.settle {p : Process} {steps : Nat} :
    ∀ {s : Strand} {w w' : World} {result : Except RunError Outcome}, p.Becomes env s →
      s.settle env steps w = some (result, w') → p.Becomes env (.ended result) := by
  induction steps with
  | zero =>
    intro s w w' result _ hSettle
    cases hSettle
  | succ steps ih =>
    intro s w w' result h hSettle
    rcases Strand.settle_succ_eq_some.mp hSettle with ⟨rfl, -⟩ | ⟨due, -, hRest⟩
    · exact h
    · exact ih (h.resume _) hRest

/-- How a call ends that has this answer. -/
def endOfAnswer : Except ActivityError Json → Except RunError Outcome
  | .ok v => .ok ⟨v, []⟩
  | .error e => .error (.activity e)

/-- A single call waits for its answer and ends with it. -/
theorem Process.becomes_single {r : Request} {t : Strand}
    (h : (Process.single r).Becomes env t) :
    ∃ w, t = .ended (endOfAnswer (env.respond w r).answer) ∨
      ∃ due ticket next, Process.single r = .call r next ∧
        t = .waiting due ticket (env.respond w r).answer next := by
  have hEnd : ∀ {next}, Process.single r = .call r next →
      ∀ a w, ((next a).start env w).1 = .ended (endOfAnswer a) := by
    rintro next ⟨⟩ (e | v) w <;> rfl
  induction h with
  | start w =>
    refine ⟨w, ?_⟩
    rw [Process.single, Process.start]
    split
    · exact .inl (hEnd rfl _ _)
    · exact .inr ⟨_, _, _, rfl, rfl⟩
  | resume _ w ih =>
    obtain ⟨w', rfl | ⟨due, ticket, next, hCall, rfl⟩⟩ := ih
    · exact ⟨w', .inl rfl⟩
    · refine ⟨w', ?_⟩
      rw [Strand.resume]
      split
      · exact .inl (hEnd hCall _ _)
      · exact .inr ⟨due, ticket, next, hCall, rfl⟩

theorem Process.followed_single (r : Request) :
    ¬ (Process.single r).Becomes env .exhausted := by
  intro h
  obtain ⟨w, hEnded | ⟨_, _, _, _, hWaiting⟩⟩ := Process.becomes_single h
  · cases hEnded
  · cases hWaiting

theorem Process.ends_single {r : Request} {result : Except RunError Outcome}
    (h : (Process.single r).Becomes env (.ended result)) :
    ∃ w, result = endOfAnswer (env.respond w r).answer := by
  obtain ⟨w, hEnded | ⟨_, _, _, _, hWaiting⟩⟩ := Process.becomes_single h
  · exact ⟨w, Strand.ended.inj hEnded⟩
  · cases hWaiting

end Orchestration
