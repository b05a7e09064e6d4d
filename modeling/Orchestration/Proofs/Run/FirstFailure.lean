import Orchestration.Run.Schedule

/-!
# Which failure comes first

Of calls that run side by side several may fail, and a fork fails as one of them does. Here the
calls are given by the responses to them, in the order in which they are dispatched.

* `EarliestFailure`: the first failure in time, and of those that come at one
  time the first in order.
* `FailureInTurn`: the first failure in order, at the time when its call and all calls
  in front of it are over.
* `FailedFirst`: the first in order of the failures that have come by some time.
* `Width.Failure`: which failure a fork reports, and when; `Width.Reports`: what it has to
  report by some time. `Width.Failure.reports` and `Width.Failure.first` say that it is
  reported, and nothing before it.
-/

namespace Orchestration

def Response.fails (r : Response) : Bool :=
  match r.answer with
  | .ok _ => false
  | .error _ => true

@[simp] theorem Response.fails_ok (v : Json) (delay : Nat) :
    Response.fails ⟨.ok v, delay⟩ = false := rfl

@[simp] theorem Response.fails_error (e : ActivityError) (delay : Nat) :
    Response.fails ⟨.error e, delay⟩ = true := rfl

variable {r : Response} {rs rest : List Response} {e e' : ActivityError} {t t' : Nat}

/-! ## The earliest failure -/

/-- This failure comes after so long, no other comes before it, and at that
time none in front of it. -/
def EarliestFailure (rs : List Response) (e : ActivityError) (t : Nat) : Prop :=
  ∃ before after, rs = before ++ ⟨.error e, t⟩ :: after ∧ (∀ r ∈ before, r.fails → t < r.delay) ∧
    ∀ r ∈ after, r.fails → t ≤ r.delay

namespace EarliestFailure

theorem mem (h : EarliestFailure rs e t) : ⟨.error e, t⟩ ∈ rs := by
  obtain ⟨before, after, rfl, -, -⟩ := h
  exact List.mem_append_right _ List.mem_cons_self

theorem le (h : EarliestFailure rs e t) (hr : r ∈ rs) (hFails : r.fails) : t ≤ r.delay := by
  obtain ⟨before, after, rfl, hBefore, hAfter⟩ := h
  rcases List.mem_append.mp hr with hr | hr
  · exact Nat.le_of_lt (hBefore r hr hFails)
  · rcases List.mem_cons.mp hr with rfl | hr
    · exact Nat.le_refl _
    · exact hAfter r hr hFails

theorem cons (h : EarliestFailure rest e t) (hr : r.fails → t < r.delay) :
    EarliestFailure (r :: rest) e t := by
  obtain ⟨before, after, rfl, hBefore, hAfter⟩ := h
  exact ⟨r :: before, after, rfl, List.forall_mem_cons.mpr ⟨hr, hBefore⟩, hAfter⟩

end EarliestFailure

/-- If calls fail, one of the failures is the earliest. -/
theorem exists_earliestFailure (h : ∃ r ∈ rs, r.fails) : ∃ e t, EarliestFailure rs e t := by
  induction rs with
  | nil => simp at h
  | cons r rest ih =>
    by_cases hRest : ∃ r ∈ rest, r.fails
    · obtain ⟨e, t, hEarliest⟩ := ih hRest
      obtain ⟨e' | v, delay⟩ := r
      · by_cases hSooner : delay ≤ t
        · exact ⟨e', delay, [], rest,
            rfl, by simp, fun r hr hFails => Nat.le_trans hSooner (hEarliest.le hr hFails)⟩
        · exact ⟨e, t, hEarliest.cons fun _ => Nat.lt_of_not_le hSooner⟩
      · exact ⟨e, t, hEarliest.cons (by simp)⟩
    · obtain ⟨r', hr', hFails⟩ := h
      rcases List.mem_cons.mp hr' with rfl | hr'
      · obtain ⟨e | v, delay⟩ := r'
        · exact ⟨e, delay, [], rest, rfl, by simp, fun r hr hFails => absurd ⟨r, hr, hFails⟩ hRest⟩
        · cases hFails
      · exact absurd ⟨r', hr', hFails⟩ hRest

/-- Calls that succeed do not matter to which failure is the earliest, nor to when it comes. -/
theorem EarliestFailure.filter (h : EarliestFailure rs e t) :
    EarliestFailure (rs.filter Response.fails) e t := by
  obtain ⟨before, after, rfl, hBefore, hAfter⟩ := h
  refine ⟨before.filter Response.fails, after.filter Response.fails, ?_, ?_, ?_⟩
  · rw [List.filter_append, List.filter_cons_of_pos (Response.fails_error e t)]
  · exact fun r hr => hBefore r (List.mem_filter.mp hr).1
  · exact fun r hr => hAfter r (List.mem_filter.mp hr).1

/-! ## The first of the failures by some time -/

/-- Of the failures that have come after so long, this is the first in order. -/
inductive FailedFirst (elapsed : Nat) : List Response → ActivityError → Prop
  | here {e : ActivityError} {delay : Nat} (h : delay ≤ elapsed) (rest : List Response) :
    FailedFirst elapsed (⟨.error e, delay⟩ :: rest) e
  | later {r : Response} {rest : List Response} {e : ActivityError}
    (hr : r.fails → elapsed < r.delay) (h : FailedFirst elapsed rest e) :
      FailedFirst elapsed (r :: rest) e

namespace FailedFirst

variable {elapsed : Nat}

theorem exists_mem (h : FailedFirst elapsed rs e) : ∃ r ∈ rs, r.fails ∧ r.delay ≤ elapsed := by
  induction h with
  | here h rest => exact ⟨_, List.mem_cons_self, rfl, h⟩
  | later _ _ ih =>
    obtain ⟨r, hr, hFailed⟩ := ih
    exact ⟨r, List.mem_cons_of_mem _ hr, hFailed⟩

theorem unique (h : FailedFirst elapsed rs e) (h' : FailedFirst elapsed rs e') : e = e' := by
  induction h with
  | here h rest =>
    cases h' with
    | here _ _ => rfl
    | later hr _ => exact absurd (hr rfl) (Nat.not_lt.mpr h)
  | later hr _ ih =>
    cases h' with
    | here h _ => exact absurd (hr rfl) (Nat.not_lt.mpr h)
    | later _ h' => exact ih h'

end FailedFirst

/-- When the earliest failure comes, it is the first in order of those that have come. -/
theorem EarliestFailure.failedFirst (h : EarliestFailure rs e t) : FailedFirst t rs e := by
  obtain ⟨before, after, rfl, hBefore, -⟩ := h
  induction before with
  | nil => exact .here (Nat.le_refl t) after
  | cons r before ih =>
    obtain ⟨hr, hBefore⟩ := List.forall_mem_cons.mp hBefore
    exact .later hr (ih hBefore)

theorem EarliestFailure.unique (h : EarliestFailure rs e t) (h' : EarliestFailure rs e' t') :
    e = e' ∧ t = t' := by
  obtain rfl : t = t' := Nat.le_antisymm (h.le h'.mem rfl) (h'.le h.mem rfl)
  exact ⟨h.failedFirst.unique h'.failedFirst, rfl⟩

/-- The earliest failure is the same wherever the same calls fail, whatever other calls succeed. -/
theorem EarliestFailure.of_filter_eq (h : EarliestFailure rs e t) {rs' : List Response}
    (hSame : rs'.filter Response.fails = rs.filter Response.fails) : EarliestFailure rs' e t := by
  have hMem : (⟨.error e, t⟩ : Response) ∈ rs' := by
    have hFiltered : (⟨.error e, t⟩ : Response) ∈ rs.filter Response.fails :=
      List.mem_filter.mpr ⟨h.mem, rfl⟩
    exact (List.mem_filter.mp (hSame ▸ hFiltered)).1
  obtain ⟨e', t', h'⟩ := exists_earliestFailure ⟨_, hMem, rfl⟩
  obtain ⟨rfl, rfl⟩ := h.filter.unique (hSame ▸ h'.filter)
  exact h'

/-! ## Failures in turn -/

/-- The first call in order that fails does so with this error, and so long it takes up to
there for all to end. -/
inductive FailureInTurn : List Response → ActivityError → Nat → Prop
  | here (e : ActivityError) (delay : Nat) (rest : List Response) :
    FailureInTurn (⟨.error e, delay⟩ :: rest) e delay
  | later (v : Json) (delay : Nat) {rest : List Response} {e : ActivityError} {t : Nat}
    (h : FailureInTurn rest e t) : FailureInTurn (⟨.ok v, delay⟩ :: rest) e (max delay t)

/-- If calls fail, there is a first one in order. -/
theorem exists_failureInTurn (h : ∃ r ∈ rs, r.fails) : ∃ e t, FailureInTurn rs e t := by
  induction rs with
  | nil => simp at h
  | cons r rest ih =>
    obtain ⟨e | v, delay⟩ := r
    · exact ⟨e, delay, .here e delay rest⟩
    · obtain ⟨e, t, hTurn⟩ := ih (by simpa using h)
      exact ⟨e, _, .later v delay hTurn⟩

namespace FailureInTurn

theorem unique (h : FailureInTurn rs e t) (h' : FailureInTurn rs e' t') : e = e' ∧ t = t' := by
  induction h generalizing t' with
  | here e delay rest =>
    cases h' with
    | here _ _ _ => exact ⟨rfl, rfl⟩
  | later v delay _ ih =>
    cases h' with
    | later _ _ h' =>
      obtain ⟨rfl, rfl⟩ := ih h'
      exact ⟨rfl, rfl⟩

theorem exists_delay (h : FailureInTurn rs e t) : ∃ r ∈ rs, r.delay = t := by
  induction h with
  | here e delay rest => exact ⟨_, List.mem_cons_self, rfl⟩
  | @later v delay rest e t _ ih =>
    obtain ⟨r, hr, hDelay⟩ := ih
    rcases Nat.le_total delay t with hLe | hLe
    · exact ⟨r, List.mem_cons_of_mem _ hr, by rw [hDelay, Nat.max_eq_right hLe]⟩
    · exact ⟨_, List.mem_cons_self, (Nat.max_eq_left hLe).symm⟩

theorem exists_fails (h : FailureInTurn rs e t) : ∃ r ∈ rs, r.fails := by
  induction h with
  | here e delay rest => exact ⟨_, List.mem_cons_self, rfl⟩
  | later v delay _ ih =>
    obtain ⟨r, hr, hFails⟩ := ih
    exact ⟨r, List.mem_cons_of_mem _ hr, hFails⟩

/-- Calls behind the first one that fails do not matter. -/
theorem append (h : FailureInTurn rs e t) (more : List Response) :
    FailureInTurn (rs ++ more) e t := by
  induction h with
  | here e delay rest => exact .here e delay (rest ++ more)
  | later v delay _ ih => exact .later v delay ih

/-- It is not the turn of a call before the one in front is over. -/
theorem head_le (h : FailureInTurn (r :: rest) e t) : r.delay ≤ t := by
  cases h with
  | here _ _ _ => exact Nat.le_refl _
  | later _ _ _ => exact Nat.le_max_left _ _

/-- Calls in front that have succeeded by then only take their time. -/
theorem append_iff {front : List Response} {elapsed : Nat}
    (hFront : ∀ r ∈ front, r.fails = false ∧ r.delay ≤ elapsed) :
    (∃ t ≤ elapsed, FailureInTurn (front ++ rs) e t) ↔ ∃ t ≤ elapsed, FailureInTurn rs e t := by
  induction front with
  | nil => rfl
  | cons r front ih =>
    obtain ⟨⟨hr, hDelay⟩, hLater⟩ := List.forall_mem_cons.mp hFront
    obtain ⟨e | v, delay⟩ := r
    · cases hr
    · rw [← ih hLater]
      constructor
      · rintro ⟨t, hNow, h⟩
        cases h with
        | later _ _ h => exact ⟨_, Nat.le_trans (Nat.le_max_right _ _) hNow, h⟩
      · rintro ⟨t, hNow, h⟩
        exact ⟨_, Nat.max_le.mpr ⟨hDelay, hNow⟩, .later v delay h⟩

end FailureInTurn

/-! ## Forks -/

namespace Width

variable {width : Width}

/-- The failure that a fork reports which starts all these calls at once, and after how long. -/
def Failure : Width → List Response → ActivityError → Nat → Prop
  | .all => EarliestFailure
  | .window _ => FailureInTurn

/-- What such a fork has to report, so long after its start. -/
def Reports (width : Width) (elapsed : Nat) (rs : List Response) (e : ActivityError) : Prop :=
  match width with
  | .all => FailedFirst elapsed rs e
  | .window _ => ∃ t ≤ elapsed, FailureInTurn rs e t

namespace Failure

theorem exists_delay (h : width.Failure rs e t) : ∃ r ∈ rs, r.delay = t := by
  cases width with
  | all => exact ⟨_, EarliestFailure.mem h, rfl⟩
  | window _ => exact FailureInTurn.exists_delay h

theorem exists_fails (h : width.Failure rs e t) : ∃ r ∈ rs, r.fails := by
  cases width with
  | all => exact ⟨_, EarliestFailure.mem h, rfl⟩
  | window _ => exact FailureInTurn.exists_fails h

theorem reports (h : width.Failure rs e t) : width.Reports t rs e := by
  cases width with
  | all => exact EarliestFailure.failedFirst h
  | window _ => exact ⟨t, Nat.le_refl t, h⟩

/-- Nothing is reported before, and nothing else at that time. -/
theorem first {elapsed : Nat} (h : width.Failure rs e t) (hReports : width.Reports elapsed rs e') :
    t ≤ elapsed ∧ (elapsed = t → e' = e) := by
  cases width with
  | all =>
    obtain ⟨r, hr, hFails, hDelay⟩ := FailedFirst.exists_mem hReports
    refine ⟨Nat.le_trans (EarliestFailure.le h hr hFails) hDelay, ?_⟩
    rintro rfl
    exact FailedFirst.unique hReports (EarliestFailure.failedFirst h)
  | window _ =>
    obtain ⟨t', hNow, h'⟩ := hReports
    obtain ⟨rfl, rfl⟩ := FailureInTurn.unique h h'
    exact ⟨hNow, fun _ => rfl⟩

end Failure

end Width

end Orchestration
