import Mathlib.Algebra.Order.Group.Multiset
import Mathlib.Tactic.Abel
import Orchestration.Proofs.Run.Transitions

/-!
# Completion of evaluated processes

A regular process that evaluates to an outcome also settles with it in time, whatever its calls take
and however many strands its windows let in, and starts just the calls of its evaluation.

A strand under way yields an outcome with a number of calls under way and a multiset of calls still
to be started (`Strand.Yields`). `Advance` compares two moments: calls started and calls to be
started are the same together, and the work left, calls under way and calls to be started, has not
grown. Each answer takes one off it, so a strand settles after as many answers as it has calls
(`Strand.settle_yields`).
-/

namespace Orchestration

/-- The calls that were started, in any order. -/
def World.calls (w : World) : Multiset Call := (w.past.map Request.call : List Call)

/-- The process ends well with this outcome and these calls. -/
def Process.Yields (answers : Answers) (p : Process) (o : Outcome) (cs : Multiset Call) : Prop :=
  p.Regular ∧ ∃ l : List Call, p.eval answers = some (o, l) ∧ cs = l

/-- `Process.Yields` for each process of a list. -/
def AllYield (answers : Answers) (ps : List Process) (os : List Outcome)
    (cs : Multiset Call) : Prop :=
  allRegular ps ∧ ∃ l : List Call, evalAll answers ps = some (os, l) ∧ cs = l

/-- The strand at the head of a window has not ended. -/
def HeadWaits (active : List Strand) : Prop :=
  ∀ s rest, active = s :: rest → ∀ r, s ≠ .ended r

mutual

/-- The strand ends well with this outcome; it has still to start the calls `cs`,
and `k` are under way. -/
def Strand.Yields (answers : Answers) : Strand → Outcome → Multiset Call → Nat → Prop
  | .ended r, o, cs, k => r = .ok o ∧ cs = 0 ∧ k = 0
  | .exhausted, _, _, _ => False
  | .waiting _ _ answer next, o, cs, k => (next answer).Yields answers o cs ∧ k = 1
  | .together strands next, o, cs, k => ∃ os ds es, strandsYield answers strands os ds k ∧
      outcomes? strands = none ∧ (next (.ok os)).Yields answers o es ∧ cs = ds + es
  | .window limit delivered active queue next, o, cs, k => ∃ os ps ds es fs, 0 < limit ∧
      strandsYield answers active os ds k ∧ active ≠ [] ∧ HeadWaits active ∧
      AllYield answers queue ps es ∧
      (next (.ok (delivered.reverse ++ (os ++ ps)))).Yields answers o fs ∧ cs = ds + es + fs

/-- `Strand.Yields` for each strand of a list, with all calls together. -/
def strandsYield (answers : Answers) : List Strand → List Outcome → Multiset Call → Nat → Prop
  | [], os, cs, k => os = [] ∧ cs = 0 ∧ k = 0
  | s :: rest, os, cs, k => ∃ o os' ds es i j, s.Yields answers o ds i ∧
      strandsYield answers rest os' es j ∧ os = o :: os' ∧ cs = ds + es ∧ k = i + j

end

variable {answers : Answers}

/-! ## What evaluation says about the parts of a process -/

theorem Process.Yields.call {r : Request} {next : Except ActivityError Json → Process} {o : Outcome}
    {cs : Multiset Call} (h : (Process.call r next).Yields answers o cs) :
    ∃ v ds, answers r.activity r.payload = .ok v ∧ (next (.ok v)).Yields answers o ds ∧
      cs = r.call ::ₘ ds := by
  obtain ⟨hRegular, l, hEval, rfl⟩ := h
  rw [Process.Regular] at hRegular
  obtain ⟨v, ds, hv, hNext, rfl⟩ := Process.eval_call_eq_some.mp hEval
  exact ⟨v, ds, hv, ⟨hRegular.1 v, ds, hNext, rfl⟩, by simp⟩

theorem Process.Yields.fork {width : Width} {strands : List Process}
    {next : Except RunError (List Outcome) → Process} {o : Outcome} {cs : Multiset Call}
    (h : (Process.fork width strands next).Yields answers o cs) :
    width.HasRoom ∧ ∃ os ds es, AllYield answers strands os ds ∧
      (next (.ok os)).Yields answers o es ∧ cs = ds + es := by
  obtain ⟨hRegular, l, hEval, rfl⟩ := h
  rw [Process.Regular] at hRegular
  obtain ⟨os, ds, es, hAll, hNext, rfl⟩ := Process.eval_fork_eq_some.mp hEval
  exact ⟨hRegular.1, os, ds, es, ⟨hRegular.2.1, ds, hAll, rfl⟩, ⟨hRegular.2.2.1 os, es, hNext, rfl⟩,
    by simp⟩

theorem AllYield.nil_iff {os : List Outcome} {cs : Multiset Call} :
    AllYield answers [] os cs ↔ os = [] ∧ cs = 0 := by
  constructor
  · rintro ⟨-, l, hEval, rfl⟩
    cases hEval
    exact ⟨rfl, rfl⟩
  · rintro ⟨rfl, rfl⟩
    exact ⟨trivial, [], rfl, rfl⟩

theorem AllYield.cons {p : Process} {rest : List Process} {os : List Outcome} {cs : Multiset Call}
    (h : AllYield answers (p :: rest) os cs) :
    ∃ o os' ds es, p.Yields answers o ds ∧ AllYield answers rest os' es ∧ os = o :: os' ∧
      cs = ds + es := by
  obtain ⟨hRegular, l, hEval, rfl⟩ := h
  rw [allRegular] at hRegular
  obtain ⟨o, os', ds, es, hHead, hRest, rfl, rfl⟩ := evalAll_cons_eq_some.mp hEval
  exact ⟨o, os', ds, es, ⟨hRegular.1, ds, hHead, rfl⟩, ⟨hRegular.2, es, hRest, rfl⟩, rfl, by simp⟩

/-- Strands that have all ended well have nothing left to do. -/
theorem strandsYield_outcomes {ss : List Strand} {os os' : List Outcome}
    {cs : Multiset Call} {k : Nat} (h : strandsYield answers ss os cs k)
    (ho : outcomes? ss = some os') :
    os' = os ∧ cs = 0 ∧ k = 0 := by
  induction ss generalizing os os' cs k with
  | nil =>
    rw [strandsYield] at h
    cases ho
    exact ⟨h.1.symm, h.2⟩
  | cons s rest ih =>
    rw [strandsYield] at h
    obtain ⟨o, os'', ds, es, i, j, hHead, hRest, rfl, rfl, rfl⟩ := h
    unfold outcomes? at ho
    split at ho
    · rename_i heq
      cases heq
    · rename_i o' rest' heq
      cases heq
      obtain ⟨os', hOs, rfl⟩ := Option.map_eq_some_iff.mp ho
      rw [Strand.Yields] at hHead
      obtain ⟨hOk, rfl, rfl⟩ := hHead
      cases hOk
      obtain ⟨rfl, rfl, rfl⟩ := ih hRest hOs
      simp
    · cases ho

theorem strandsYield_append {ss ts : List Strand} {os ps : List Outcome} {cs ds : Multiset Call}
    {k l : Nat} (h : strandsYield answers ss os cs k) (h' : strandsYield answers ts ps ds l) :
    strandsYield answers (ss ++ ts) (os ++ ps) (cs + ds) (k + l) := by
  induction ss generalizing os cs k with
  | nil =>
    rw [strandsYield] at h
    obtain ⟨rfl, rfl, rfl⟩ := h
    simpa using h'
  | cons s rest ih =>
    rw [strandsYield] at h
    obtain ⟨o, os', ds', es, i, j, hHead, hRest, rfl, rfl, rfl⟩ := h
    rw [List.cons_append, strandsYield]
    exact ⟨o, os' ++ ps, ds', es + ds, i, j + l, hHead, ih hRest, rfl, by abel, by omega⟩

theorem strandsYield_singleton {s : Strand} {o : Outcome} {cs : Multiset Call} {k : Nat}
    (h : s.Yields answers o cs k) : strandsYield answers [s] [o] cs k := by
  rw [strandsYield]
  exact ⟨o, [], cs, 0, k, 0, h, by simp [strandsYield], rfl, by simp, rfl⟩

/-- One strand of a list, and what stays the same when another takes its place. -/
theorem strandsYield_focus {ss : List Strand} {os : List Outcome} {cs : Multiset Call} {k i : Nat}
    {s : Strand} (h : strandsYield answers ss os cs k) (hAt : ss[i]? = some s) :
    ∃ o ds es m n, s.Yields answers o ds m ∧ cs = ds + es ∧ k = m + n ∧
      ∀ s' ds' m', s'.Yields answers o ds' m' →
        strandsYield answers (ss.set i s') os (ds' + es) (m' + n) := by
  induction ss generalizing os cs k i with
  | nil => simp at hAt
  | cons t rest ih =>
    rw [strandsYield] at h
    obtain ⟨o, os', ds, es, m, n, hHead, hRest, rfl, rfl, rfl⟩ := h
    cases i with
    | zero =>
      cases hAt
      refine ⟨o, ds, es, m, n, hHead, rfl, rfl, fun s' ds' m' hs' => ?_⟩
      rw [List.set_cons_zero, strandsYield]
      exact ⟨o, os', ds', es, m', n, hs', hRest, rfl, rfl, rfl⟩
    | succ i =>
      obtain ⟨o', ds', es', m', n', hs, rfl, rfl, hSet⟩ := ih hRest hAt
      refine ⟨o', ds', ds + es', m', m + n', hs, by abel, by omega, fun s' fs l hs' => ?_⟩
      rw [List.set_cons_succ, strandsYield]
      exact ⟨o, os', ds, fs + es', m, l + n', hHead, hSet s' fs l hs', rfl, by abel, by omega⟩

/-! ## Moments of a run -/

/-- From `w` to `w'` no time passes, and some of the calls `cs` to be started have been started. Of
`n` calls under way and these, `m` and `ds` are left, at least `t` less. -/
structure Advance (t : Nat) (w w' : World) (cs ds : Multiset Call) (n m : Nat) : Prop where
  now : w'.now = w.now
  calls : w'.calls + ds = w.calls + cs
  work : m + Multiset.card ds + t ≤ n + Multiset.card cs

theorem Advance.refl (w : World) (cs : Multiset Call) (n : Nat) : Advance 0 w w cs cs n n :=
  ⟨rfl, rfl, Nat.le_refl _⟩

theorem Advance.trans {t u : Nat} {w w' w'' : World} {cs ds es : Multiset Call} {n m l : Nat}
    (h : Advance t w w' cs ds n m) (h' : Advance u w' w'' ds es m l) :
    Advance (t + u) w w'' cs es n l := by
  have := h.work
  have := h'.work
  exact ⟨h'.now.trans h.now, h'.calls.trans h.calls, by omega⟩

/-- What other strands have to do stays as it is. -/
theorem Advance.frame {t : Nat} {w w' : World} {cs ds : Multiset Call} {n m : Nat}
    (h : Advance t w w' cs ds n m) (es : Multiset Call) (l : Nat) :
    Advance t w w' (cs + es) (ds + es) (n + l) (m + l) := by
  have := h.work
  refine ⟨h.now, ?_, ?_⟩
  · rw [← add_assoc, h.calls, add_assoc]
  · simp only [Multiset.card_add]
    omega

theorem Advance.weaken {t u : Nat} {w w' : World} {cs ds : Multiset Call} {n m : Nat}
    (h : Advance t w w' cs ds n m) (hu : u ≤ t) : Advance u w w' cs ds n m := by
  have := h.work
  exact ⟨h.now, h.calls, by omega⟩

/-- A strand that has gone on yields the outcome, and the run has advanced. -/
def Arrives (answers : Answers) (t : Nat) (w : World) (o : Outcome) (cs : Multiset Call) (n : Nat)
    (r : Strand × World) : Prop :=
  ∃ ds m, r.1.Yields answers o ds m ∧ Advance t w r.2 cs ds n m

/-- Strands that have gone on yield their outcomes, and the run has advanced. -/
def AllArrive (answers : Answers) (t : Nat) (w : World) (os : List Outcome) (cs : Multiset Call)
    (n : Nat) (ss : List Strand) (w' : World) : Prop :=
  ∃ ds m, strandsYield answers ss os ds m ∧ Advance t w w' cs ds n m

theorem Advance.call (w : World) (r : Request) (cs : Multiset Call) {n : Nat} (hn : n ≤ 1) :
    Advance 0 w { w with past := r :: w.past } (r.call ::ₘ cs) cs 0 n := by
  refine ⟨rfl, ?_, ?_⟩
  · simp only [World.calls, List.map_cons, ← Multiset.cons_coe, Multiset.cons_add,
      Multiset.add_cons]
  · simp only [Multiset.card_cons]
    omega

/-- An answer takes a call off those under way. -/
theorem Advance.answered {w w' : World} {cs ds : Multiset Call} {m : Nat}
    (h : Advance 0 w w' cs ds 0 m) : Advance 1 w w' cs ds 1 m := by
  have := h.work
  exact ⟨h.now, h.calls, by omega⟩

theorem Arrives.of_advance {t u : Nat} {w w' : World} {o : Outcome} {cs ds : Multiset Call}
    {n m : Nat} {r : Strand × World} (h : Advance t w w' cs ds n m)
    (hr : Arrives answers u w' o ds m r) :
    Arrives answers (t + u) w o cs n r := by
  obtain ⟨es, l, hYields, hAdvance⟩ := hr
  exact ⟨es, l, hYields, h.trans hAdvance⟩

/-! ## Windows -/

/-- The results delivered and those that the window has still to yield are these, in order. -/
def WindowYields (answers : Answers) (total delivered : List Outcome) (active : List Strand)
    (queue : List Process) (cs : Multiset Call) (k : Nat) : Prop :=
  ∃ os ps ds es, strandsYield answers active os ds k ∧ AllYield answers queue ps es ∧
    delivered.reverse ++ (os ++ ps) = total ∧ cs = ds + es

/-- A window yields its results after the run has advanced, and its head waits. -/
def WindowArrives (answers : Answers) (t : Nat) (w : World) (total : List Outcome)
    (cs : Multiset Call) (n : Nat) (s : WindowState) (w' : World) : Prop :=
  (∃ ds m, WindowYields answers total s.delivered s.active s.queue ds m ∧
    Advance t w w' cs ds n m) ∧ HeadWaits s.active

theorem Strand.yields_window_iff {limit : Nat} {delivered : List Outcome} {active : List Strand}
    {queue : List Process} {next : Except RunError (List Outcome) → Process} {o : Outcome}
    {cs : Multiset Call} {k : Nat} :
    (Strand.window limit delivered active queue next).Yields answers o cs k ↔
      0 < limit ∧ active ≠ [] ∧ HeadWaits active ∧ ∃ total ds es,
        WindowYields answers total delivered active queue ds k ∧
          (next (.ok total)).Yields answers o es ∧ cs = ds + es := by
  rw [Strand.Yields]
  constructor
  · rintro ⟨os, ps, ds, es, fs, hLimit, hActive, hSome, hHead, hQueue, hNext, rfl⟩
    exact ⟨hLimit, hSome, hHead, _, ds + es, fs, ⟨os, ps, ds, es, hActive, hQueue, rfl, rfl⟩,
      hNext, rfl⟩
  · rintro ⟨hLimit, hSome, hHead, -, -, fs, ⟨os, ps, ds, es, hActive, hQueue, rfl, rfl⟩, hNext, rfl⟩
    exact ⟨os, ps, ds, es, fs, hLimit, hActive, hSome, hHead, hQueue, hNext, rfl⟩

/-- Nothing fails in a window that yields its results, whatever is delivered. -/
theorem WindowYields.deliver {total delivered : List Outcome} {active : List Strand}
    {queue : List Process} {cs : Multiset Call} {k : Nat}
    (h : WindowYields answers total delivered active queue cs k) :
    ∃ delivered' active', deliver delivered active = .going (delivered', active') ∧
      WindowYields answers total delivered' active' queue cs k := by
  induction active generalizing delivered cs k with
  | nil => exact ⟨delivered, [], rfl, h⟩
  | cons s rest ih =>
    unfold Orchestration.deliver
    split
    · rename_i o rest' heq
      cases heq
      obtain ⟨os, ps, ds, es, hActive, hQueue, rfl, rfl⟩ := h
      rw [strandsYield] at hActive
      obtain ⟨o', os', ds', es', i, j, hHead, hRest, rfl, rfl, rfl⟩ := hActive
      rw [Strand.Yields] at hHead
      obtain ⟨hOk, rfl, rfl⟩ := hHead
      cases hOk
      exact ih ⟨os', ps, es', es, by simpa using hRest, hQueue, by simp, by simp⟩
    · rename_i e rest' heq
      cases heq
      obtain ⟨os, ps, ds, es, hActive, -, -, -⟩ := h
      rw [strandsYield] at hActive
      obtain ⟨o', os', ds', es', i, j, hHead, -⟩ := hActive
      rw [Strand.Yields] at hHead
      cases hHead.1
    · exact ⟨delivered, s :: rest, rfl, h⟩

/-- A strand that takes its place in a window of which it yields its part. -/
theorem WindowYields.settleIn {t : Nat} {w : World} {total delivered : List Outcome}
    {queue : List Process} {r : Strand × World} {cs ds : Multiset Call} {n m : Nat}
    (placed : Strand → List Strand)
    (h : WindowYields answers total delivered (placed r.1) queue ds m)
    (hAdvance : Advance t w r.2 cs ds n m) (hRun : r.1 ≠ .exhausted) :
    Progress.Satisfies (fun _ => False) False
      (fun s w' => WindowArrives answers t w total cs n ⟨s.1, s.2, queue⟩ w')
      (Orchestration.settleIn delivered placed r) := by
  obtain ⟨delivered', active', hDeliver, hYields⟩ := h.deliver
  unfold Orchestration.settleIn
  split
  · exact hRun rfl
  · rw [hDeliver]
    refine ⟨⟨ds, m, hYields, hAdvance⟩, ?_⟩
    rintro s rest rfl
    exact deliver_going_head hDeliver

theorem Strand.Yields.ne_exhausted {s : Strand} {o : Outcome} {cs : Multiset Call} {k : Nat}
    (h : s.Yields answers o cs k) : s ≠ .exhausted := by
  rintro rfl
  rw [Strand.Yields] at h
  exact h

/-- Strands that go on one after the other yield their outcomes. -/
theorem headOf_andThen_yields {t u : Nat} {w : World} {r : Strand × World} {o : Outcome}
    {os : List Outcome} {ds es : Multiset Call} {i j : Nat}
    {later : World → Progress (List Strand) × World} (hHead : Arrives answers t w o ds i r)
    (hLater : ∀ w', w'.now = w.now → Progress.Satisfies (fun _ => False) False
      (fun ss w'' => AllArrive answers u w' os es j ss w'') (later w')) :
    Progress.Satisfies (fun _ => False) False
      (fun ss w' => AllArrive answers (t + u) w (o :: os) (ds + es) (i + j) ss w')
      (Progress.andThen (headOf r) fun s w =>
        Progress.andThen (later w) fun ss w => (.going (s :: ss), w)) := by
  obtain ⟨s, w'⟩ := r
  obtain ⟨ds', m, hYields, hAdvance⟩ := hHead
  have hOk : headOf (s, w') = (.going s, w') := by
    unfold headOf
    split
    · rename_i heq
      cases heq
      rw [Strand.Yields] at hYields
      cases hYields.1
    · rename_i heq
      cases heq
      exact absurd rfl hYields.ne_exhausted
    · rename_i heq
      cases heq
      rfl
  rw [hOk]
  refine Progress.Satisfies.andThen (M := fun ss w'' => AllArrive answers u w' os es j ss w'')
    (hLater w' hAdvance.now) fun ss w'' hss => ?_
  obtain ⟨es', l, hRest, hLast⟩ := hss
  refine ⟨ds' + es', m + l, ?_, ?_⟩
  · rw [strandsYield]
    exact ⟨o, os, ds', es', m, l, hYields, hRest, rfl, rfl, rfl⟩
  · have hFirst := hAdvance.frame es j
    have hSecond := hLast.frame ds' m
    rw [add_comm es, add_comm es', add_comm j, add_comm l] at hSecond
    exact hFirst.trans hSecond

/-! ## Starting -/

section Completeness

variable {env : Environment}

/-- How a process goes on when its strands have gone on: past them if they have all ended. -/
theorem AllArrive.joinAll {t : Nat} {w : World} {os : List Outcome} {o : Outcome}
    {ds es : Multiset Call} {n : Nat} {r : Progress (List Strand) × World}
    {next : Except RunError (List Outcome) → Process}
    (h : Progress.Satisfies (fun _ => False) False (fun ss w' =>
      AllArrive answers t w os ds n ss w') r) (hNext : (next (.ok os)).Yields answers o es)
    (hStart : ∀ w, Arrives answers 0 w o es 0 ((next (.ok os)).start env w)) :
    Arrives answers t w o (ds + es) n (joinAll env next r) := by
  refine joinAll_of_satisfies (P := Arrives answers t w o (ds + es) n) h (fun _ _ => False.elim)
    (fun _ => False.elim) ?_ ?_
  · rintro ss os' w' ⟨ds', m, hYields, hAdvance⟩ hOutcomes
    obtain ⟨rfl, rfl, rfl⟩ := strandsYield_outcomes hYields hOutcomes
    have hRest := hAdvance.frame es 0
    rw [Multiset.zero_add] at hRest
    exact (hStart w').of_advance hRest
  · rintro ss w' ⟨ds', m, hYields, hAdvance⟩ hOutcomes
    refine ⟨ds' + es, m, ?_, hAdvance.frame es 0⟩
    rw [Strand.Yields]
    exact ⟨os, ds', es, hYields, hOutcomes, hNext, rfl⟩

/-- A window that has been filled: if nothing is under way, nothing is left to start. -/
def Filled (answers : Answers) (t : Nat) (w : World) (total : List Outcome) (cs : Multiset Call)
    (n : Nat) (s : WindowState) (w' : World) : Prop :=
  WindowArrives answers t w total cs n s w' ∧ (s.active = [] → s.queue = [])

theorem Filled.of_advance {t u : Nat} {w w' w'' : World} {total : List Outcome}
    {cs ds : Multiset Call} {n m : Nat} {s : WindowState} (h : Advance t w w' cs ds n m)
    (hs : Filled answers u w' total ds m s w'') : Filled answers (t + u) w total cs n s w'' := by
  obtain ⟨⟨⟨es, l, hYields, hAdvance⟩, hHead⟩, hQueue⟩ := hs
  exact ⟨⟨⟨es, l, hYields, h.trans hAdvance⟩, hHead⟩, hQueue⟩

/-- How a process goes on when its window has been filled. -/
theorem Filled.joinWindow {t : Nat} {w : World} {total : List Outcome} {o : Outcome}
    {cs es : Multiset Call} {n limit : Nat} {r : Progress WindowState × World}
    {next : Except RunError (List Outcome) → Process}
    (h : Progress.Satisfies (fun _ => False) False (fun s w' => Filled answers t w total cs n s w')
      r) (hLimit : 0 < limit) (hNext : (next (.ok total)).Yields answers o es)
    (hStart : ∀ w, Arrives answers 0 w o es 0 ((next (.ok total)).start env w)) :
    Arrives answers t w o (cs + es) n (joinWindow env limit next r) := by
  refine joinWindow_of_satisfies (P := Arrives answers t w o (cs + es) n) h (fun _ _ => False.elim)
    (fun _ => False.elim) ?_ ?_
  · rintro delivered w' ⟨⟨⟨ds, m, hYields, hAdvance⟩, -⟩, -⟩
    obtain ⟨os, ps, ds', es', hActive, hRest, rfl, rfl⟩ := hYields
    rw [strandsYield] at hActive
    rw [AllYield.nil_iff] at hRest
    obtain ⟨rfl, rfl, rfl⟩ := hActive
    obtain ⟨rfl, rfl⟩ := hRest
    have hAll := hAdvance.frame es 0
    simp only [Nat.add_zero, Multiset.zero_add] at hAll
    simpa using (hStart w').of_advance hAll
  · rintro s w' ⟨⟨⟨ds, m, hYields, hAdvance⟩, hHead⟩, hQueue⟩ hLeft
    exact ⟨ds + es, m,
      Strand.yields_window_iff.mpr ⟨hLimit, fun hNone => hLeft hNone (hQueue hNone), hHead, total,
        ds, es, hYields, hNext, rfl⟩, hAdvance.frame es 0⟩

-- These recur as `Process.start`, `startAll` and `fill` do. Starting never takes an answer, so the
-- work left stays within what it was.
mutual

/-- A process that yields an outcome starts without failing. -/
theorem Process.start_yields
    (hEnv : ∀ w r, (env.respond w r).answer = answers r.activity r.payload) :
    ∀ (p : Process) (w : World) (o : Outcome) (cs : Multiset Call), p.Yields answers o cs →
      Arrives answers 0 w o cs 0 (p.start env w)
  | .done (.ok o'), w, o, cs, h => by
    obtain ⟨-, l, hEval, rfl⟩ := h
    cases hEval
    exact ⟨0, 0, by simp [Process.start, Strand.Yields], Advance.refl w _ 0⟩
  | .done (.error e), w, o, cs, h => by
    obtain ⟨-, l, hEval, rfl⟩ := h
    cases hEval
  | .exhausted, w, o, cs, h => by
    obtain ⟨-, l, hEval, rfl⟩ := h
    cases hEval
  | .call r next, w, o, cs, h => by
    obtain ⟨v, ds, hv, hNext, rfl⟩ := h.call
    have hAnswer : (env.respond w r).answer = .ok v := (hEnv w r).trans hv
    simp only [Process.start, hAnswer]
    split
    · exact (Process.start_yields hEnv (next (.ok v)) _ o ds hNext).of_advance
        (Advance.call w r ds (Nat.zero_le 1))
    · exact ⟨ds, 1, by rw [Strand.Yields]; exact ⟨hNext, rfl⟩, Advance.call w r ds (Nat.le_refl 1)⟩
  | .fork .all strands next, w, o, cs, h => by
    obtain ⟨-, os, ds, es, hStrands, hNext, rfl⟩ := h.fork
    rw [Process.start_fork_all]
    exact AllArrive.joinAll (startAll_yields hEnv strands w os ds hStrands) hNext
      fun w => Process.start_yields hEnv (next (.ok os)) w o es hNext
  | .fork (.window limit) strands next, w, o, cs, h => by
    obtain ⟨hLimit, os, ds, es, hStrands, hNext, rfl⟩ := h.fork
    have hFill := fill_yields hEnv hLimit strands w [] [] os ds 0
      ⟨[], os, 0, ds, by simp [strandsYield], hStrands, by simp, by simp⟩ (by rintro s rest ⟨⟩)
    rw [Process.start_fork_window]
    exact Filled.joinWindow hFill hLimit hNext
      fun w => Process.start_yields hEnv (next (.ok os)) w o es hNext

/-- Processes that yield outcomes start without failing. -/
theorem startAll_yields
    (hEnv : ∀ w r, (env.respond w r).answer = answers r.activity r.payload) :
    ∀ (ps : List Process) (w : World) (os : List Outcome) (cs : Multiset Call),
      AllYield answers ps os cs → Progress.Satisfies (fun _ => False) False
        (fun ss w' => AllArrive answers 0 w os cs 0 ss w') (startAll env ps w)
  | [], w, os, cs, h => by
    obtain ⟨rfl, rfl⟩ := AllYield.nil_iff.mp h
    exact ⟨0, 0, by simp [strandsYield], Advance.refl w 0 0⟩
  | p :: rest, w, os, cs, h => by
    obtain ⟨o, os', ds, es, hHead, hRest, rfl, rfl⟩ := h.cons
    rw [startAll_cons]
    exact headOf_andThen_yields (Process.start_yields hEnv p w o ds hHead)
      fun w' _ => startAll_yields hEnv rest w' os' es hRest

/-- A window that yields its results is filled without failing. -/
theorem fill_yields (hEnv : ∀ w r, (env.respond w r).answer = answers r.activity r.payload)
    {limit : Nat} (hLimit : 0 < limit) :
    ∀ (queue : List Process) (w : World) (delivered : List Outcome) (active : List Strand)
      (total : List Outcome) (cs : Multiset Call) (k : Nat),
      WindowYields answers total delivered active queue cs k → HeadWaits active →
      Progress.Satisfies (fun _ => False) False (Filled answers 0 w total cs k)
        (fill env limit delivered active queue w)
  | [], w, delivered, active, total, cs, k, h, hHead => by
    rw [fill]
    exact ⟨⟨⟨cs, k, h, Advance.refl w cs k⟩, hHead⟩, fun _ => rfl⟩
  | p :: rest, w, delivered, active, total, cs, k, h, hHead => by
    rw [fill_cons]
    split
    · obtain ⟨os, ps, ds, es, hActive, hQueue, rfl, rfl⟩ := h
      obtain ⟨o, ps, fs, gs, hp, hRest, rfl, rfl⟩ := hQueue.cons
      obtain ⟨fs', m, hYields, hAdvance⟩ := Process.start_yields hEnv p w o fs hp
      have hPlaced : WindowYields answers (delivered.reverse ++ (os ++ o :: ps)) delivered
          (active ++ [(p.start env w).1]) rest (ds + fs' + gs) (k + m) :=
        ⟨os ++ [o], ps, ds + fs', gs, strandsYield_append hActive (strandsYield_singleton hYields),
          hRest, by simp, rfl⟩
      have hAll : Advance 0 w (p.start env w).2 (ds + (fs + gs)) (ds + fs' + gs) k (k + m) := by
        have hFrame := hAdvance.frame (ds + gs) k
        rw [Nat.zero_add, show fs + (ds + gs) = ds + (fs + gs) by abel,
          show fs' + (ds + gs) = ds + fs' + gs by abel, Nat.add_comm m k] at hFrame
        exact hFrame
      refine Progress.Satisfies.andThen
        (hPlaced.settleIn (fun s => active ++ [s]) hAll hYields.ne_exhausted)
        fun s w' hs => ?_
      obtain ⟨⟨ds', l, hLater, hBefore⟩, hHead'⟩ := hs
      exact (fill_yields hEnv hLimit rest w' s.1 s.2 _ ds' l hLater hHead').imp
        fun s' w'' hFilled => Filled.of_advance hBefore hFilled
    · rename_i hFull
      refine ⟨⟨⟨cs, k, h, Advance.refl w cs k⟩, hHead⟩, ?_⟩
      rintro rfl
      exact absurd hLimit hFull

end

/-! ## Going on -/

/-- Whether a strand has an answer at that time: one call less is under way when it has gone on. -/
def answered (ticket : Option Nat) : Nat := if ticket.isSome then 1 else 0

theorem answered_firstTicketOf_cons_le (now : Nat) (s : Strand) (rest : List Strand) :
    answered (firstTicketOf now (s :: rest)) ≤
      answered (s.firstTicket now) + answered (firstTicketOf now rest) := by
  rw [firstTicketOf]
  cases s.firstTicket now <;> cases firstTicketOf now rest <;> simp [answered]

theorem answered_le_length_wakeups (env : Environment) (now : Nat) (active : List Strand) :
    answered (firstTicketOf now active) ≤ (wakeups env now 0 active).length := by
  cases hTicket : firstTicketOf now active with
  | none => simp [answered]
  | some ticket =>
    have hSome : wakeups env now 0 active ≠ [] := by
      rw [Ne, wakeups_eq_nil_iff, hTicket]
      simp
    exact List.length_pos_iff.mpr hSome

theorem Arrives.weaken {t u : Nat} {w : World} {o : Outcome} {cs : Multiset Call} {n : Nat}
    {r : Strand × World} (h : Arrives answers t w o cs n r) (hu : u ≤ t) :
    Arrives answers u w o cs n r := by
  obtain ⟨ds, m, hYields, hAdvance⟩ := h
  exact ⟨ds, m, hYields, hAdvance.weaken hu⟩

/-- In a window that has come so far, a strand with an answer goes on at its place. -/
theorem WindowArrives.wake {t : Nat} {w w' : World} {total delivered : List Outcome}
    {active : List Strand} {queue : List Process} {cs : Multiset Call} {k i : Nat} {s : Strand}
    (h : WindowArrives answers t w total cs k ⟨delivered, active, queue⟩ w')
    (hAt : active[i]? = some s) (hDue : (s.firstTicket w.now).isSome)
    (hResume : ∀ o fs m, s.Yields answers o fs m →
      Arrives answers (answered (s.firstTicket w'.now)) w' o fs m (s.resume env w')) :
    Progress.Satisfies (fun _ => False) False
      (fun r w'' => WindowArrives answers (t + 1) w total cs k ⟨r.1, r.2, queue⟩ w'')
      (settleIn delivered (active.set i) (s.resume env w')) := by
  obtain ⟨⟨ds', m, ⟨os, ps, ds₁, ds₂, hActive, hQueue, rfl, rfl⟩, hAdvance⟩, -⟩ := h
  obtain ⟨o, fs, gs, i', j, hs, rfl, rfl, hSet⟩ := strandsYield_focus hActive hAt
  obtain ⟨fs', l, hYields, hStep⟩ := hResume o fs i' hs
  have hOne : answered (s.firstTicket w'.now) = 1 := by
    rw [hAdvance.now, answered, if_pos hDue]
  rw [hOne] at hStep
  have hPlaced : WindowYields answers (delivered.reverse ++ (os ++ ps)) delivered
      (active.set i (s.resume env w').1) queue (fs' + gs + ds₂) (l + j) :=
    ⟨os, ps, _, ds₂, hSet _ _ _ hYields, hQueue, rfl, rfl⟩
  have hFrame := hStep.frame (gs + ds₂) j
  rw [← add_assoc, ← add_assoc] at hFrame
  exact hPlaced.settleIn (active.set i) (hAdvance.trans hFrame) hYields.ne_exhausted

-- At least one call less is under way when a strand with an answer has gone on. In a window that is
-- one for each wakeup, of which only the first is needed.
mutual

/-- A strand that yields an outcome goes on without failing, and answers take calls off it. -/
theorem Strand.resume_yields
    (hEnv : ∀ w r, (env.respond w r).answer = answers r.activity r.payload) :
    ∀ (s : Strand) (w : World) (o : Outcome) (cs : Multiset Call) (k : Nat),
    s.Yields answers o cs k →
      Arrives answers (answered (s.firstTicket w.now)) w o cs k (s.resume env w)
  | .ended r, w, o, cs, k, h => by
    rw [Strand.resume, Strand.firstTicket]
    exact ⟨cs, k, h, Advance.refl w cs k⟩
  | .exhausted, w, o, cs, k, h => absurd rfl h.ne_exhausted
  | .waiting due ticket answer next, w, o, cs, k, h => by
    rw [Strand.resume, Strand.firstTicket]
    split
    · rw [Strand.Yields] at h
      obtain ⟨hNext, rfl⟩ := h
      obtain ⟨ds, m, hYields, hAdvance⟩ := Process.start_yields hEnv (next answer) w o cs hNext
      exact ⟨ds, m, hYields, hAdvance.answered⟩
    · exact ⟨cs, k, h, Advance.refl w cs k⟩
  | .together strands next, w, o, cs, k, h => by
    rw [Strand.Yields] at h
    obtain ⟨os, ds, es, hStrands, -, hNext, rfl⟩ := h
    rw [Strand.resume_together, Strand.firstTicket]
    exact AllArrive.joinAll (resumeAll_yields hEnv strands w os ds k hStrands) hNext
      fun w => Process.start_yields hEnv (next (.ok os)) w o es hNext
  | .window limit delivered active queue next, w, o, cs, k, h => by
    obtain ⟨hLimit, -, hHead, total, ds, es, hWindow, hNext, rfl⟩ := Strand.yields_window_iff.mp h
    have hWoken := runWakeups_sort_satisfies env w.now delivered active w
      (F := fun _ => False) (X := False)
      (M := fun t s w' => WindowArrives answers t w total ds k ⟨s.1, s.2, queue⟩ w')
      ⟨⟨ds, k, hWindow, Advance.refl w ds k⟩, hHead⟩ ?_
    · rw [Strand.resume_window, Strand.firstTicket]
      refine Arrives.weaken (Filled.joinWindow (hWoken.andThen ?_) hLimit hNext
        fun w => Process.start_yields hEnv (next (.ok total)) w o es hNext)
        (answered_le_length_wakeups env w.now active)
      rintro s w' ⟨⟨ds', m, hYields, hAdvance⟩, hHead'⟩
      exact (fill_yields hEnv hLimit queue w' s.1 s.2 total ds' m hYields hHead').imp
        fun s' w'' hFilled => Filled.of_advance hAdvance hFilled
    · intro t delivered' active' w' i s hArrives hAt hMem hDue
      exact hArrives.wake hAt hDue (activeResume_yields hEnv active s hMem w')

/-- Strands that yield outcomes go on without failing, and an answer takes a call off them. -/
theorem resumeAll_yields
    (hEnv : ∀ w r, (env.respond w r).answer = answers r.activity r.payload) :
    ∀ (ss : List Strand) (w : World) (os : List Outcome) (cs : Multiset Call) (k : Nat),
      strandsYield answers ss os cs k → Progress.Satisfies (fun _ => False) False
        (fun ss' w' => AllArrive answers (answered (firstTicketOf w.now ss)) w os cs k ss' w')
        (resumeAll env ss w)
  | [], w, os, cs, k, h => by
    rw [resumeAll, firstTicketOf]
    exact ⟨cs, k, h, Advance.refl w cs k⟩
  | s :: rest, w, os, cs, k, h => by
    rw [strandsYield] at h
    obtain ⟨o, os', ds, es, i, j, hHead, hRest, rfl, rfl, rfl⟩ := h
    rw [resumeAll_cons]
    have hLater : ∀ w', w'.now = w.now → Progress.Satisfies (fun _ => False) False
        (fun ss w'' => AllArrive answers (answered (firstTicketOf w.now rest)) w' os' es j ss w'')
        (resumeAll env rest w') := by
      intro w' hNow
      rw [← hNow]
      exact resumeAll_yields hEnv rest w' os' es j hRest
    refine (headOf_andThen_yields (Strand.resume_yields hEnv s w o ds i hHead) hLater).imp ?_
    rintro ss' w' ⟨ds', m, hYields, hAdvance⟩
    exact ⟨ds', m, hYields, hAdvance.weaken (answered_firstTicketOf_cons_le w.now s rest)⟩

/-- Any strand of a window that yields an outcome goes on without failing. -/
theorem activeResume_yields
    (hEnv : ∀ w r, (env.respond w r).answer = answers r.activity r.payload) :
    ∀ (active : List Strand) (s : Strand), s ∈ active → ∀ (w : World) (o : Outcome)
      (cs : Multiset Call) (k : Nat), s.Yields answers o cs k →
      Arrives answers (answered (s.firstTicket w.now)) w o cs k (s.resume env w)
  | [], s, hs, w, o, cs, k, h => by
    cases hs
  | t :: rest, s, hs, w, o, cs, k, h => by
    rcases List.mem_cons.mp hs with hEq | hs
    · rw [hEq] at h ⊢
      exact Strand.resume_yields hEnv t w o cs k h
    · exact activeResume_yields hEnv rest s hs w o cs k h

end

/-! ## The next answer -/

/-- A list of strands of which one has an answer to come. -/
theorem isSome_nextDueOf_cons {s : Strand} {rest : List Strand} :
    (nextDueOf (s :: rest)).isSome ↔ s.nextDue.isSome ∨ (nextDueOf rest).isSome := by
  rw [nextDueOf]
  cases s.nextDue <;> cases nextDueOf rest <;> simp

theorem isSome_firstTicketOf_cons {now : Nat} {s : Strand} {rest : List Strand} :
    (firstTicketOf now (s :: rest)).isSome ↔
      (s.firstTicket now).isSome ∨ (firstTicketOf now rest).isSome := by
  rw [firstTicketOf]
  cases s.firstTicket now <;> cases firstTicketOf now rest <;> simp

mutual

/-- A strand that yields an outcome and has not ended waits for an answer. -/
theorem Strand.Yields.nextDue : ∀ {s : Strand} {o : Outcome} {cs : Multiset Call} {k : Nat},
    s.Yields answers o cs k → (∀ r, s ≠ .ended r) → s.nextDue.isSome
  | .ended r, o, cs, k, h, hRun => absurd rfl (hRun r)
  | .exhausted, o, cs, k, h, hRun => absurd rfl h.ne_exhausted
  | .waiting due ticket answer next, o, cs, k, h, hRun => rfl
  | .together strands next, o, cs, k, h, hRun => by
    rw [Strand.Yields] at h
    obtain ⟨os, ds, es, hStrands, hOutcomes, -, -⟩ := h
    rw [Strand.nextDue]
    exact strandsYield_nextDue hStrands hOutcomes
  | .window limit delivered active queue next, o, cs, k, h, hRun => by
    obtain ⟨-, hSome, hHead, total, ds, es, ⟨os, ps, ds', es', hActive, -⟩, -⟩ :=
      Strand.yields_window_iff.mp h
    rw [Strand.nextDue]
    refine strandsYield_nextDue hActive ?_
    obtain ⟨s, rest, rfl⟩ := List.exists_cons_of_ne_nil hSome
    unfold outcomes?
    split
    · rename_i heq
      cases heq
    · rename_i o' rest' heq
      cases heq
      exact absurd rfl (hHead _ _ rfl _)
    · rfl

/-- Of strands that yield outcomes and have not all ended, one waits for an answer. -/
theorem strandsYield_nextDue :
    ∀ {ss : List Strand} {os : List Outcome} {cs : Multiset Call} {k : Nat},
    strandsYield answers ss os cs k → outcomes? ss = none → (nextDueOf ss).isSome
  | [], os, cs, k, h, hOutcomes => by
    cases hOutcomes
  | s :: rest, os, cs, k, h, hOutcomes => by
    rw [strandsYield] at h
    obtain ⟨o, os', ds, es, i, j, hHead, hRest, rfl, rfl, rfl⟩ := h
    rw [isSome_nextDueOf_cons]
    unfold outcomes? at hOutcomes
    split at hOutcomes
    · cases hOutcomes
    · rename_i o' rest' heq
      cases heq
      exact .inr (strandsYield_nextDue hRest (Option.map_eq_none_iff.mp hOutcomes))
    · rename_i hNil hOther
      refine .inl (hHead.nextDue ?_)
      rintro r rfl
      rw [Strand.Yields] at hHead
      obtain ⟨rfl, -, -⟩ := hHead
      exact hOther o rest rfl

end

mutual

/-- When the time of its next answer has come, a strand has an answer. -/
theorem Strand.isSome_firstTicket : ∀ {s : Strand} {due now : Nat}, s.nextDue = some due →
    due ≤ now → (s.firstTicket now).isSome
  | .waiting due ticket answer next, due', now, h, hNow => by
    rw [Strand.nextDue, Option.some.injEq] at h
    rw [Strand.firstTicket, if_pos (h ▸ hNow)]
    rfl
  | .together strands next, due, now, h, hNow => by
    rw [Strand.nextDue] at h
    rw [Strand.firstTicket]
    exact isSome_firstTicketOf h hNow
  | .window limit delivered active queue next, due, now, h, hNow => by
    rw [Strand.nextDue] at h
    rw [Strand.firstTicket]
    exact isSome_firstTicketOf h hNow
  | .ended r, due, now, h, hNow => by
    cases h
  | .exhausted, due, now, h, hNow => by
    cases h

/-- `Strand.isSome_firstTicket` for a list of strands. -/
theorem isSome_firstTicketOf : ∀ {ss : List Strand} {due now : Nat}, nextDueOf ss = some due →
    due ≤ now → (firstTicketOf now ss).isSome
  | [], due, now, h, hNow => by
    cases h
  | s :: rest, due, now, h, hNow => by
    rw [isSome_firstTicketOf_cons]
    rw [nextDueOf] at h
    split at h
    · rename_i a b ha hb
      cases h
      rcases Nat.le_total a b with hab | hba
      · exact .inl (Strand.isSome_firstTicket ha (by omega))
      · exact .inr (isSome_firstTicketOf hb (by omega))
    · rename_i a ha hb
      cases h
      exact .inl (Strand.isSome_firstTicket ha hNow)
    · exact .inr (isSome_firstTicketOf h hNow)

end

/-! ## Whole runs -/

/-- A strand that yields an outcome settles with it and starts its calls, unless it is followed for
no more answers than it has calls. -/
theorem Strand.settle_yields
    (hEnv : ∀ w r, (env.respond w r).answer = answers r.activity r.payload) (fuel : Nat) :
    ∀ {s : Strand} {w : World} {o : Outcome} {cs : Multiset Call} {k : Nat},
    s.Yields answers o cs k →
      (s.settle env fuel w = none ∧ fuel ≤ k + Multiset.card cs) ∨
        ∃ w', s.settle env fuel w = some (.ok o, w') ∧ w'.calls = w.calls + cs := by
  induction fuel with
  | zero =>
    intro s w o cs k _
    exact .inl ⟨rfl, Nat.zero_le _⟩
  | succ fuel ih =>
    intro s w o cs k hYields
    rw [Strand.settle.eq_def]
    dsimp only
    split
    · rw [Strand.Yields] at hYields
      obtain ⟨rfl, rfl, rfl⟩ := hYields
      exact .inr ⟨w, rfl, by simp⟩
    · exact absurd rfl hYields.ne_exhausted
    · rename_i hRun hEnd
      obtain ⟨due, hDue⟩ := Option.isSome_iff_exists.mp (hYields.nextDue fun r hr => hRun r hr)
      rw [hDue]
      have hTicket := Strand.isSome_firstTicket hDue (Nat.le_refl due)
      obtain ⟨ds, m, hNext, hAdvance⟩ :=
        Strand.resume_yields hEnv s { w with now := due } o cs k hYields
      have hWork := hAdvance.work
      rw [answered, if_pos hTicket] at hWork
      rcases ih hNext (w := (s.resume env { w with now := due }).2) with
        ⟨hNone, hFuel⟩ | ⟨w', hSettle, hCalls⟩
      · exact .inl ⟨hNone, by omega⟩
      · exact .inr ⟨w', hSettle, hCalls.trans hAdvance.calls⟩

end Completeness

/-- The calls of a run, in any order. -/
def Execution.callBag (e : Execution) : Multiset Call := (e.calls.map Request.call : List Call)

/-- A run whose process evaluates to an outcome comes to it and starts its calls, unless it is
followed for no more answers than it has calls. -/
theorem Workflow.run_of_eval {w : Workflow} {limits : Limits} {caller : Caller} {fuel : Nat}
    {requestId : String} {payload : Json} {o : Outcome} {cs : List Call}
    (hEnv : ∀ world r, ((Environment.mk caller limits.activityTimeout).respond world r).answer =
      answers r.activity r.payload)
    (hEval : (w.process limits fuel requestId payload).eval answers = some (o, cs)) :
    (w.run limits caller fuel requestId payload = none ∧ fuel ≤ cs.length) ∨
      ∃ e, w.run limits caller fuel requestId payload = some e ∧ e.result = .ok o ∧
      e.callBag = cs := by
  have hYields : (w.process limits fuel requestId payload).Yields answers o cs :=
    ⟨Workflow.walk_regular fuel _ w _ payload [], cs, hEval, rfl⟩
  obtain ⟨ds, m, hStart, hAdvance⟩ := Process.start_yields hEnv _ ⟨0, []⟩ o cs hYields
  have hWork := hAdvance.work
  rw [Multiset.coe_card] at hWork
  rcases Strand.settle_yields hEnv fuel hStart
      (w := ((w.process limits fuel requestId payload).start ⟨caller, limits.activityTimeout⟩
        ⟨0, []⟩).2)
    with ⟨hNone, hFuel⟩ | ⟨w', hSettle, hCalls⟩
  · exact .inl ⟨Option.map_eq_none_iff.mpr hNone, by omega⟩
  · refine .inr ⟨⟨requestId, .ok o, w'.past.reverse, w'.now⟩,
      Option.map_eq_some_iff.mpr ⟨(.ok o, w'), hSettle, rfl⟩, rfl, ?_⟩
    have hAll : w'.calls = cs := by
      rw [hCalls, hAdvance.calls]
      simp [World.calls]
    rw [← hAll, Execution.callBag, World.calls, List.map_reverse, Multiset.coe_reverse]

end Orchestration
