import Orchestration.Proofs.Run.Postcondition

/-!
# Evaluation of processes

What a process comes to when every call answers with a function of its activity and payload, and
that without any clock: strand after strand, call after call. `Process.eval` gives the outcome and
the calls in that order, and nothing if a call fails on the way.

* `Process.Regular`: a failing call or strand fails the process, and every window has room. All
  processes of workflows are regular (`Workflow.walk_regular`).
* `Workflow.eval_of_run`: a run that ends well has the outcome of its evaluation,
  whatever its calls took.
-/

namespace Orchestration

/-- What activities answer when it depends on the activity and the payload only. -/
abbrev Answers := String → Json → Except ActivityError Json

/-- A call without the run that it belongs to: activity and payload. -/
abbrev Call := String × Json

/-- The call of a request. -/
def Request.call (r : Request) : Call := (r.activity, r.payload)

mutual

/-- The outcome of a process and its calls, one strand of a fork after the other. -/
def Process.eval (answers : Answers) : Process → Option (Outcome × List Call)
  | .done (.ok o) => some (o, [])
  | .done (.error _) | .exhausted => none
  | .call r next =>
    match answers r.activity r.payload with
    | .ok v => ((next (.ok v)).eval answers).map fun (o, cs) => (o, r.call :: cs)
    | .error _ => none
  | .fork _ strands next => do
    let (os, cs) ← evalAll answers strands
    let (o, ds) ← (next (.ok os)).eval answers
    some (o, cs ++ ds)

/-- The outcomes of processes and all their calls. -/
def evalAll (answers : Answers) : List Process → Option (List Outcome × List Call)
  | [] => some ([], [])
  | p :: rest => do
    let (o, cs) ← p.eval answers
    let (os, ds) ← evalAll answers rest
    some (o :: os, cs ++ ds)

end

variable {answers : Answers}

/-! ## Equations -/

theorem Process.eval_call_eq_some {r : Request} {next : Except ActivityError Json → Process}
    {o : Outcome} {cs : List Call} :
    (Process.call r next).eval answers = some (o, cs) ↔
      ∃ v ds, answers r.activity r.payload = .ok v ∧ (next (.ok v)).eval answers = some (o, ds) ∧
        cs = r.call :: ds := by
  rw [Process.eval]
  cases answers r.activity r.payload with
  | error e => simp
  | ok v =>
    simp only [Option.map_eq_some_iff, Prod.mk.injEq, Prod.exists, Except.ok.injEq]
    constructor
    · rintro ⟨o', ds, h, rfl, rfl⟩
      exact ⟨v, ds, rfl, h, rfl⟩
    · rintro ⟨v', ds, rfl, h, rfl⟩
      exact ⟨o, ds, h, rfl, rfl⟩

theorem Process.eval_fork_eq_some {width : Width} {strands : List Process}
    {next : Except RunError (List Outcome) → Process} {o : Outcome} {cs : List Call} :
    (Process.fork width strands next).eval answers = some (o, cs) ↔
      ∃ os ds es, evalAll answers strands = some (os, ds) ∧
        (next (.ok os)).eval answers = some (o, es) ∧ cs = ds ++ es := by
  rw [Process.eval]
  cases evalAll answers strands with
  | none => simp
  | some r =>
    obtain ⟨os, ds⟩ := r
    cases h : (next (.ok os)).eval answers with
    | none => simp [h]
    | some r =>
      obtain ⟨o', es⟩ := r
      simp [h, eq_comm, and_assoc]

theorem evalAll_cons_eq_some {p : Process} {rest : List Process} {os : List Outcome}
    {cs : List Call} :
    evalAll answers (p :: rest) = some (os, cs) ↔
      ∃ o os' ds es, p.eval answers = some (o, ds) ∧ evalAll answers rest = some (os', es) ∧
        os = o :: os' ∧ cs = ds ++ es := by
  rw [evalAll]
  cases p.eval answers with
  | none => simp
  | some r =>
    obtain ⟨o, ds⟩ := r
    cases evalAll answers rest with
    | none => simp
    | some r =>
      obtain ⟨os', es⟩ := r
      simp [eq_comm, and_assoc]

theorem evalAll_append_eq_some {ps qs : List Process} {os : List Outcome} {cs : List Call}
    (h : evalAll answers (ps ++ qs) = some (os, cs)) :
    ∃ os' os'' ds es, evalAll answers ps = some (os', ds) ∧ evalAll answers qs = some (os'', es) ∧
      os = os' ++ os'' := by
  induction ps generalizing os cs with
  | nil => exact ⟨[], os, [], cs, rfl, h, rfl⟩
  | cons p rest ih =>
    obtain ⟨o, os', ds, es, hHead, hRest, rfl, rfl⟩ := evalAll_cons_eq_some.mp h
    obtain ⟨os₁, os₂, ds', es', hFirst, hSecond, rfl⟩ := ih hRest
    exact ⟨o :: os₁, os₂, ds ++ ds', es',
      evalAll_cons_eq_some.mpr ⟨o, os₁, ds, ds', hHead, hFirst, rfl, rfl⟩, hSecond, rfl⟩

/-- Processes have their outcomes one by one. -/
theorem forall₂_of_evalAll {ps : List Process} {os : List Outcome} {cs : List Call}
    (h : evalAll answers ps = some (os, cs)) :
    List.Forall₂ (fun p o => ∃ ds, p.eval answers = some (o, ds)) ps os := by
  induction ps generalizing os cs with
  | nil =>
    cases h
    exact List.Forall₂.nil
  | cons p rest ih =>
    obtain ⟨o, os', ds, es, hHead, hRest, rfl, rfl⟩ := evalAll_cons_eq_some.mp h
    exact List.Forall₂.cons ⟨ds, hHead⟩ (ih hRest)

@[simp] theorem Process.eval_value (payload : Json) :
    (Process.value payload).eval answers = some (⟨payload, []⟩, []) := rfl

@[simp] theorem Process.eval_fail (e : RunError) : (Process.fail e).eval answers = none := rfl

/-- A process that goes on after a success has the calls of both parts. -/
theorem Process.eval_andThen :
    ∀ (p : Process) (f : Outcome → Process), (p.andThen f).eval answers =
      (p.eval answers).bind fun r => ((f r.1).eval answers).map fun s => (s.1, r.2 ++ s.2)
  | .done (.ok o), f => by
    simp [Process.andThen, Process.eval]
  | .done (.error e), f => rfl
  | .exhausted, f => rfl
  | .call r next, f => by
    rw [Process.andThen, Process.eval, Process.eval]
    cases answers r.activity r.payload with
    | error e => rfl
    | ok v =>
      simp only
      rw [Process.eval_andThen (next (.ok v)) f]
      cases (next (.ok v)).eval answers with
      | none => rfl
      | some r' => simp [Function.comp_def]
  | .fork width strands next, f => by
    rw [Process.andThen, Process.eval, Process.eval]
    cases evalAll answers strands with
    | none => rfl
    | some r =>
      obtain ⟨os, cs⟩ := r
      simp only [Option.bind_eq_bind, Option.bind_some]
      rw [Process.eval_andThen (next (.ok os)) f]
      cases (next (.ok os)).eval answers with
      | none => rfl
      | some r' =>
        simp only [Option.bind_some, List.append_assoc]
        cases (f r'.1).eval answers <;> rfl

theorem Process.eval_andThen_eq_some {p : Process} {f : Outcome → Process} {o : Outcome}
    {cs : List Call} :
    (p.andThen f).eval answers = some (o, cs) ↔
      ∃ o' ds es, p.eval answers = some (o', ds) ∧ (f o').eval answers = some (o, es) ∧
        cs = ds ++ es := by
  rw [Process.eval_andThen]
  cases p.eval answers with
  | none => simp
  | some r =>
    obtain ⟨o', ds⟩ := r
    cases h : (f o').eval answers with
    | none => simp [h]
    | some r =>
      obtain ⟨o'', es⟩ := r
      simp [h, eq_comm, and_assoc]

/-! ## Regular processes -/

/-- Whether a fork of this width can start its strands. -/
def Width.HasRoom : Width → Prop
  | .all => True
  | .window limit => 0 < limit

mutual

/-- A failing call or strand fails the process, and every window has room. -/
def Process.Regular : Process → Prop
  | .done _ | .exhausted => True
  | .call _ next => (∀ v, (next (.ok v)).Regular) ∧ ∀ e, ∃ e', next (.error e) = .fail e'
  | .fork width strands next =>
    width.HasRoom ∧ allRegular strands ∧ (∀ os, (next (.ok os)).Regular) ∧
        ∀ e, ∃ e', next (.error e) = .fail e'

/-- `Process.Regular` for each process of a list. -/
def allRegular : List Process → Prop
  | [] => True
  | p :: rest => p.Regular ∧ allRegular rest

end

theorem allRegular_iff {ps : List Process} : allRegular ps ↔ ∀ p ∈ ps, p.Regular := by
  induction ps with
  | nil => simp [allRegular]
  | cons p rest ih => simp [allRegular, ih]

theorem Process.regular_fail (e : RunError) : (Process.fail e).Regular := by
  simp [Process.fail, Process.Regular]

theorem Process.regular_value (payload : Json) : (Process.value payload).Regular := by
  simp [Process.value, Process.Regular]

theorem Process.regular_single (r : Request) : (Process.single r).Regular := by
  rw [Process.single, Process.Regular]
  exact ⟨fun v => Process.regular_value v, fun e => ⟨.activity e, rfl⟩⟩

/-- Going on after a success with regular processes is regular. -/
theorem Process.Regular.andThen {f : Outcome → Process} (hf : ∀ o, (f o).Regular) :
    ∀ {p : Process}, p.Regular → (p.andThen f).Regular
  | .done (.ok o), _ => hf o
  | .done (.error e), _ => Process.regular_fail e
  | .exhausted, h => h
  | .call r next, h => by
    rw [Process.Regular] at h
    rw [Process.andThen, Process.Regular]
    refine ⟨fun v => Process.Regular.andThen hf (h.1 v), fun e => ?_⟩
    obtain ⟨e', he⟩ := h.2 e
    exact ⟨e', by rw [he]; rfl⟩
  | .fork width strands next, h => by
    rw [Process.Regular] at h
    rw [Process.andThen, Process.Regular]
    refine ⟨h.1, h.2.1, fun os => Process.Regular.andThen hf (h.2.2.1 os), fun e => ?_⟩
    obtain ⟨e', he⟩ := h.2.2.2 e
    exact ⟨e', by rw [he]; rfl⟩

/-! ## Evaluation and ends -/

/-- What is sure of answers that may time out: a value is the one that the activity gives. -/
def Answers.Known (answers : Answers) : Answering := fun r a =>
  ∀ v, a = .ok v → answers r.activity r.payload = .ok v

/-- If a process ends well, it ends with the outcome of its evaluation. -/
def Process.EvalPost (answers : Answers) (p : Process) : Post := fun r =>
  ∀ o, r = .ok o → ∃ cs, p.eval answers = some (o, cs)

theorem evalAll_of_mayEnd {ps : List Process} {os : List Outcome}
    (h : MayEnd (ps.map (Process.EvalPost answers)) os) :
    ∃ cs, evalAll answers ps = some (os, cs) := by
  induction ps generalizing os with
  | nil =>
    cases h
    exact ⟨[], rfl⟩
  | cons p rest ih =>
    obtain ⟨o, os', hHead, hRest, rfl⟩ := List.forall₂_cons_left_iff.mp h
    obtain ⟨cs, hCs⟩ := hHead o rfl
    obtain ⟨ds, hDs⟩ := ih hRest
    exact ⟨cs ++ ds, evalAll_cons_eq_some.mpr ⟨o, os', cs, ds, hCs, hDs, rfl, rfl⟩⟩

/-- A postcondition may be weakened. -/
theorem Process.Meets.mono {A : Answering} {P Q : Post} (hPQ : ∀ r, P r → Q r) :
    ∀ {p : Process}, p.Meets A P → p.Meets A Q
  | .done r, h => by
    rw [Process.Meets] at h ⊢
    exact hPQ r h
  | .exhausted, _ => by
    simp [Process.Meets]
  | .call r next, h => by
    rw [Process.Meets] at h ⊢
    exact fun a ha => Process.Meets.mono hPQ (h a ha)
  | .fork width strands next, h => by
    obtain ⟨posts, hStrands, hFail, hEnd⟩ := Process.meets_fork_iff.mp h
    exact Process.meets_fork_iff.mpr ⟨posts, hStrands, fun e he =>
      Process.Meets.mono hPQ (hFail e he), fun os hos => Process.Meets.mono hPQ (hEnd os hos)⟩

mutual

/-- Every good end of a regular process is the outcome of its evaluation. -/
theorem Process.Regular.meets_evalPost :
    ∀ {p : Process}, p.Regular → p.Meets answers.Known (p.EvalPost answers)
  | .done r, _ => by
    rw [Process.Meets]
    rintro o rfl
    exact ⟨[], rfl⟩
  | .exhausted, _ => by
    simp [Process.Meets]
  | .call r next, h => by
    rw [Process.Regular] at h
    rw [Process.Meets]
    rintro (e | v) ha
    · obtain ⟨e', he⟩ := h.2 e
      rw [he, Process.fail, Process.Meets]
      rintro o ⟨⟩
    · refine (Process.Regular.meets_evalPost (h.1 v)).mono ?_
      rintro r' hr o rfl
      obtain ⟨cs, hCs⟩ := hr o rfl
      exact ⟨r.call :: cs, Process.eval_call_eq_some.mpr ⟨v, cs, ha v rfl, hCs, rfl⟩⟩
  | .fork width strands next, h => by
    rw [Process.Regular] at h
    obtain ⟨-, hStrands, hOk, hError⟩ := h
    refine Process.meets_fork_iff.mpr ⟨strands.map (Process.EvalPost answers),
      allRegular_meets_evalPost hStrands, ?_, ?_⟩
    · intro e _
      obtain ⟨e', he⟩ := hError e
      rw [he, Process.fail, Process.Meets]
      rintro o ⟨⟩
    · intro os hos
      obtain ⟨cs, hCs⟩ := evalAll_of_mayEnd hos
      refine (Process.Regular.meets_evalPost (hOk os)).mono ?_
      rintro r' hr o rfl
      obtain ⟨ds, hDs⟩ := hr o rfl
      exact ⟨cs ++ ds, Process.eval_fork_eq_some.mpr ⟨os, cs, ds, hCs, hDs, rfl⟩⟩

/-- `Process.Regular.meets_evalPost` for each process of a list. -/
theorem allRegular_meets_evalPost :
    ∀ {ps : List Process}, allRegular ps →
      List.Forall₂ (Process.Meets answers.Known) ps (ps.map (Process.EvalPost answers))
  | [], _ => List.Forall₂.nil
  | p :: rest, h => by
    rw [allRegular] at h
    exact List.Forall₂.cons (Process.Regular.meets_evalPost h.1) (allRegular_meets_evalPost h.2)

end

end Orchestration
