import Orchestration.Proofs.Run.Congruence
import Orchestration.Proofs.Run.Termination
import Orchestration.Proofs.Run.Worlds

/-!
# Runs that are followed further

A run is followed for a number of steps. Followed further it does the same up to where it was left,
and more after that. `Process.ShortOf` says so of two processes, up to what counts as the same end;
the two go alongside each other until the first one is left.

* `Strand.Alongside`, `FallsShort`: the two at one moment; `Process.start_fallsShort` and
  `Strand.resume_fallsShort` carry them on.
* `Workflow.run_of_shortOf`: what the shorter run came to, the longer one comes to as well.
* `Workflow.callsWithin`: the calls of a run as far as it is followed, of which
  `Workflow.callsWithin_of_shortOf` says that they are the first ones of those of the longer run.
* `Workflow.walk_shortOf`: a walk with more fuel is followed further.
-/

namespace Orchestration

/-! ## Processes that are followed less far -/

/-- When the ends of two processes count as the same. -/
abbrev EndRelation := Except RunError Outcome → Except RunError Outcome → Prop

/-- As far as the first process is followed, the second one does the same. Their ends are related;
the ends of the strands of a fork are equal. -/
inductive Process.ShortOf : EndRelation → Process → Process → Prop
  | exhausted {E : EndRelation} (p' : Process) : ShortOf E .exhausted p'
  | done {E : EndRelation} {r r' : Except RunError Outcome} (hEnd : E r r') :
    ShortOf E (.done r) (.done r')
  | call {E : EndRelation} {next next' : Except ActivityError Json → Process} (r : Request)
    (hNext : ∀ a, ShortOf E (next a) (next' a)) : ShortOf E (.call r next) (.call r next')
  | fork {E : EndRelation} {strands strands' : List Process}
    {next next' : Except RunError (List Outcome) → Process} (width : Width)
    (hStrands : List.Forall₂ (ShortOf Eq) strands strands')
    (hNext : ∀ x, ShortOf E (next x) (next' x)) :
    ShortOf E (.fork width strands next) (.fork width strands' next')

section ShortOf

variable {E : EndRelation}

/-- What goes on after a success is followed less far as well. -/
theorem Process.ShortOf.andThen {f f' : Outcome → Process} (hf : ∀ o, (f o).ShortOf E (f' o))
    (hError : ∀ e, E (.error e) (.error e)) :
    ∀ {p p' : Process}, p.ShortOf Eq p' → (p.andThen f).ShortOf E (p'.andThen f')
  | .done (.ok o), _, h => by
    cases h with
    | done hEnd =>
      subst hEnd
      exact hf o
  | .done (.error e), _, h => by
    cases h with
    | done hEnd =>
      subst hEnd
      exact .done (hError e)
  | .exhausted, _, _ => .exhausted _
  | .call r next, _, h => by
    cases h with
    | call _ hNext => exact .call r fun a => Process.ShortOf.andThen hf hError (hNext a)
  | .fork width strands next, _, h => by
    cases h with
    | fork _ hStrands hNext =>
      exact .fork width hStrands fun x => Process.ShortOf.andThen hf hError (hNext x)

/-- A relation of processes that are followed less far is one that transitions keep. -/
theorem Process.shortOf_congruence : Process.Congruence (Process.ShortOf Eq) where
  value payload := .done rfl
  fail e := .done rfl
  call := by
    intro r next next' hOk hError
    refine .call r fun a => ?_
    cases a with
    | ok v => exact hOk v
    | error e =>
      obtain ⟨e', hFail, hFail'⟩ := hError e
      rw [hFail, hFail']
      exact .done rfl
  fork := by
    intro width strands strands' next next' hStrands hOk hError
    refine .fork width hStrands fun x => ?_
    cases x with
    | ok os => exact hOk os
    | error e =>
      obtain ⟨e', hFail, hFail'⟩ := hError e
      rw [hFail, hFail']
      exact .done rfl

end ShortOf

/-! ## Strands alongside each other -/

/-- Two strands wait for the same, and what the first goes on with is followed less far. -/
inductive Strand.Alongside : EndRelation → Strand → Strand → Prop
  | ended {E : EndRelation} {r r' : Except RunError Outcome} (hEnd : E r r') :
    Alongside E (.ended r) (.ended r')
  | waiting {E : EndRelation} {next next' : Except ActivityError Json → Process} (due ticket : Nat)
    (answer : Except ActivityError Json) (hNext : (next answer).ShortOf E (next' answer)) :
    Alongside E (.waiting due ticket answer next) (.waiting due ticket answer next')
  | together {E : EndRelation} {active active' : List Strand}
    {next next' : Except RunError (List Outcome) → Process}
    (hActive : List.Forall₂ (Alongside Eq) active active')
    (hNext : ∀ x, (next x).ShortOf E (next' x)) :
    Alongside E (.together active next) (.together active' next')
  | window {E : EndRelation} {active active' : List Strand} {queue queue' : List Process}
    {next next' : Except RunError (List Outcome) → Process} (limit : Nat) (delivered : List Outcome)
    (hActive : List.Forall₂ (Alongside Eq) active active')
    (hQueue : List.Forall₂ (Process.ShortOf Eq) queue queue')
    (hNext : ∀ x, (next x).ShortOf E (next' x)) :
    Alongside E (.window limit delivered active queue next)
      (.window limit delivered active' queue' next')

mutual

theorem Strand.nextDue_of_alongside {E : EndRelation} :
    ∀ {s s' : Strand}, s.Alongside E s' → s.nextDue = s'.nextDue
  | .ended _, _, h => by
    cases h
    rw [Strand.nextDue, Strand.nextDue]
  | .exhausted, _, h => by cases h
  | .waiting .., _, h => by
    cases h
    rw [Strand.nextDue, Strand.nextDue]
  | .together active next, _, h => by
    cases h with
    | together hActive _ =>
      rw [Strand.nextDue, Strand.nextDue]
      exact nextDueOf_of_alongside hActive
  | .window limit delivered active queue next, _, h => by
    cases h with
    | window _ _ hActive _ _ =>
      rw [Strand.nextDue, Strand.nextDue]
      exact nextDueOf_of_alongside hActive

theorem nextDueOf_of_alongside :
    ∀ {ss ss' : List Strand}, List.Forall₂ (Strand.Alongside Eq) ss ss' →
    nextDueOf ss = nextDueOf ss'
  | [], _, h => by
    cases h
    rfl
  | s :: rest, _, h => by
    cases h with
    | cons hHead hRest =>
      rw [nextDueOf, nextDueOf, Strand.nextDue_of_alongside hHead, nextDueOf_of_alongside hRest]

end

mutual

theorem Strand.firstTicket_of_alongside {E : EndRelation} (now : Nat) :
    ∀ {s s' : Strand}, s.Alongside E s' → s.firstTicket now = s'.firstTicket now
  | .ended _, _, h => by
    cases h
    rw [Strand.firstTicket, Strand.firstTicket]
  | .exhausted, _, h => by cases h
  | .waiting .., _, h => by
    cases h
    rw [Strand.firstTicket, Strand.firstTicket]
  | .together active next, _, h => by
    cases h with
    | together hActive _ =>
      rw [Strand.firstTicket, Strand.firstTicket]
      exact firstTicketOf_of_alongside now hActive
  | .window limit delivered active queue next, _, h => by
    cases h with
    | window _ _ hActive _ _ =>
      rw [Strand.firstTicket, Strand.firstTicket]
      exact firstTicketOf_of_alongside now hActive

theorem firstTicketOf_of_alongside (now : Nat) : ∀ {ss ss' : List Strand},
    List.Forall₂ (Strand.Alongside Eq) ss ss' → firstTicketOf now ss = firstTicketOf now ss'
  | [], _, h => by
    cases h
    rfl
  | s :: rest, _, h => by
    cases h with
    | cons hHead hRest =>
      rw [firstTicketOf, firstTicketOf, Strand.firstTicket_of_alongside now hHead,
        firstTicketOf_of_alongside now hRest]

end

theorem outcomes?_of_alongside {ss ss' : List Strand}
    (h : List.Forall₂ (Strand.Alongside Eq) ss ss') :
    outcomes? ss = outcomes? ss' := by
  induction h with
  | nil => rfl
  | cons hHead _ ih =>
    cases hHead with
    | @ended _ r _ hEnd =>
      subst hEnd
      cases r with
      | ok o => rw [outcomes?, outcomes?, ih]
      | error e => rfl
    | _ => rfl

/-- The same is delivered, and what is left goes alongside. -/
theorem deliver_of_alongside {ss ss' : List Strand} (h : List.Forall₂ (Strand.Alongside Eq) ss ss')
    (delivered : List Outcome) :
    (∃ e, deliver delivered ss = .failed e ∧ deliver delivered ss' = .failed e) ∨
      ∃ os rest rest', deliver delivered ss = .going (os, rest) ∧
        deliver delivered ss' = .going (os, rest') ∧
        List.Forall₂ (Strand.Alongside Eq) rest rest' := by
  induction h generalizing delivered with
  | nil => exact .inr ⟨delivered, [], [], rfl, rfl, .nil⟩
  | @cons s s' rest rest' hHead hRest ih =>
    cases hHead with
    | @ended _ r _ hEnd =>
      subst hEnd
      cases r with
      | ok o => exact ih (o :: delivered)
      | error e => exact .inl ⟨e, rfl, rfl⟩
    | waiting due ticket answer hNext =>
      exact .inr ⟨delivered, _, _, rfl, rfl, .cons (.waiting due ticket answer hNext) hRest⟩
    | together hActive hNext =>
      exact .inr ⟨delivered, _, _, rfl, rfl, .cons (.together hActive hNext) hRest⟩
    | window limit before hActive hQueue hNext =>
      exact .inr ⟨delivered, _, _, rfl, rfl,
        .cons (.window limit before hActive hQueue hNext) hRest⟩

/-! ## Runs that are left earlier -/

/-- The first run was left, after some of the calls of the second one, or the two go
alongside in one world. -/
def FallsShort (E : EndRelation) (r r' : Strand × World) : Prop :=
  r.1 = .exhausted ∧ r.2.past <:+ r'.2.past ∨ r.1.Alongside E r'.1 ∧ r.2 = r'.2

/-- The first run was left, or both fail alike, or they come equally far, related by `S`. -/
def Progress.FallsShort {α : Type} (S : α → α → Prop) (r r' : Progress α × World) : Prop :=
  r.1 = .exhausted ∧ r.2.past <:+ r'.2.past ∨ (∃ e w, r = (.failed e, w) ∧ r' = (.failed e, w)) ∨
    ∃ a a' w, S a a' ∧ r = (.going a, w) ∧ r' = (.going a', w)

theorem Progress.FallsShort.going {α : Type} {S : α → α → Prop} {a a' : α} (h : S a a')
    (w : World) :
    Progress.FallsShort S (.going a, w) (.going a', w) := .inr (.inr ⟨a, a', w, h, rfl, rfl⟩)

theorem Progress.FallsShort.andThen {α β : Type} {S : α → α → Prop} {T : β → β → Prop}
    {r r' : Progress α × World} {f f' : α → World → Progress β × World}
    (h : Progress.FallsShort S r r') (hPast : ∀ a w, w.past <:+ (f' a w).2.past)
    (hStep : ∀ a a' w, S a a' → Progress.FallsShort T (f a w) (f' a' w)) :
    Progress.FallsShort T (Progress.andThen r f) (Progress.andThen r' f') := by
  obtain ⟨r, w⟩ := r
  rcases h with ⟨rfl, hShort⟩ | ⟨e, w', hr, rfl⟩ | ⟨a, a', w', hS, hr, rfl⟩
  · exact .inl ⟨rfl, Progress.keeps_andThen (P := fun v => w.past <:+ v.past) hShort
      fun a v hv => hv.trans (hPast a v)⟩
  · rw [hr]
    exact .inr (.inl ⟨e, w', rfl, rfl⟩)
  · rw [hr]
    exact hStep a a' w' hS

theorem headOf_fallsShort {r r' : Strand × World} (h : FallsShort Eq r r') :
    Progress.FallsShort (Strand.Alongside Eq) (headOf r) (headOf r') := by
  obtain ⟨s, w⟩ := r
  obtain ⟨s', w'⟩ := r'
  rcases h with ⟨rfl, hShort⟩ | ⟨hSame, rfl⟩
  · exact .inl ⟨rfl, by rwa [headOf_world (s', w')]⟩
  · cases hSame with
    | @ended _ r _ hEnd =>
      subst hEnd
      cases r with
      | ok o => exact .going (.ended rfl) w
      | error e => exact .inr (.inl ⟨e, w, rfl, rfl⟩)
    | waiting due ticket answer hNext => exact .going (.waiting due ticket answer hNext) w
    | together hActive hNext => exact .going (.together hActive hNext) w
    | window limit delivered hActive hQueue hNext =>
      exact .going (.window limit delivered hActive hQueue hNext) w

/-- Strands that go on one after the other. -/
theorem headOf_andThen_fallsShort {r r' : Strand × World}
    {later later' : World → Progress (List Strand) × World} (hHead : FallsShort Eq r r')
    (hPast : ∀ w, w.past <:+ (later' w).2.past)
    (hLater : ∀ w, Progress.FallsShort (List.Forall₂ (Strand.Alongside Eq)) (later w) (later' w)) :
    Progress.FallsShort (List.Forall₂ (Strand.Alongside Eq))
      (Progress.andThen (headOf r) fun s w => Progress.andThen (later w) fun ss w =>
        (.going (s :: ss), w))
      (Progress.andThen (headOf r') fun s w =>
        Progress.andThen (later' w) fun ss w => (.going (s :: ss), w)) := by
  refine (headOf_fallsShort hHead).andThen (fun s w => ?_) fun s s' w hs => ?_
  · exact Progress.keeps_andThen (P := fun v => w.past <:+ v.past) (hPast w) fun ss v hv => hv
  · exact (hLater w).andThen (fun ss w => List.suffix_rfl) fun ss ss' w hss =>
      .going (.cons hs hss) w

/-- Two windows that have delivered the same, with the strands under way alongside each other. -/
def PlacesAlongside (s s' : List Outcome × List Strand) : Prop :=
  s.1 = s'.1 ∧ List.Forall₂ (Strand.Alongside Eq) s.2 s'.2

/-- Two such windows, with those that wait for room in them. -/
def WindowState.Alongside (s s' : WindowState) : Prop :=
  s.delivered = s'.delivered ∧ List.Forall₂ (Strand.Alongside Eq) s.active s'.active ∧
    List.Forall₂ (Process.ShortOf Eq) s.queue s'.queue

/-- Two strands that take their places in windows. -/
theorem settleIn_fallsShort {r r' : Strand × World} (h : FallsShort Eq r r')
    (delivered : List Outcome) (placed placed' : Strand → List Strand)
    (hPlaced : r.1.Alongside Eq r'.1 →
      List.Forall₂ (Strand.Alongside Eq) (placed r.1) (placed' r'.1)) :
    Progress.FallsShort PlacesAlongside (settleIn delivered placed r)
      (settleIn delivered placed' r') := by
  obtain ⟨s, w⟩ := r
  obtain ⟨s', w'⟩ := r'
  rcases h with ⟨rfl, hShort⟩ | ⟨hSame, rfl⟩
  · exact .inl ⟨rfl, by rwa [settleIn_world delivered placed' (s', w')]⟩
  · have hLeft : settleIn delivered placed (s, w) = (deliver delivered (placed s), w) := by
      cases hSame <;> rfl
    have hRight : settleIn delivered placed' (s', w) = (deliver delivered (placed' s'), w) := by
      cases hSame <;> rfl
    rw [hLeft, hRight]
    rcases deliver_of_alongside (hPlaced hSame) delivered with ⟨e, he, he'⟩
      | ⟨os, rest, rest', ho, ho', hRest⟩
    · rw [he, he']
      exact .inr (.inl ⟨e, w, rfl, rfl⟩)
    · rw [ho, ho']
      exact .going ⟨rfl, hRest⟩ w

/-! ## Joining -/

section Join

variable {E : EndRelation} {env : Environment}
  {next next' : Except RunError (List Outcome) → Process}

theorem joinAll_fallsShort {r r' : Progress (List Strand) × World}
    (h : Progress.FallsShort (List.Forall₂ (Strand.Alongside Eq)) r r')
    (hNext : ∀ x, (next x).ShortOf E (next' x))
    (hStart : ∀ x w, FallsShort E ((next x).start env w) ((next' x).start env w)) :
    FallsShort E (joinAll env next r) (joinAll env next' r') := by
  obtain ⟨r, w⟩ := r
  rcases h with ⟨rfl, hShort⟩ | ⟨e, w', hr, rfl⟩ | ⟨ss, ss', w', hss, hr, rfl⟩
  · exact .inl ⟨rfl, joinAll_keeps (P := fun v => w.past <:+ v.past)
      (fun x v hv => hv.trans (Process.past_start (next' x) v)) hShort⟩
  · rw [hr]
    exact hStart _ w'
  · rw [hr, joinAll, joinAll, ← outcomes?_of_alongside hss]
    cases outcomes? ss with
    | some os => exact hStart _ w'
    | none => exact .inr ⟨.together hss hNext, rfl⟩

theorem joinWindow_fallsShort {limit : Nat} {r r' : Progress WindowState × World}
    (h : Progress.FallsShort WindowState.Alongside r r') (hNext : ∀ x, (next x).ShortOf E (next' x))
    (hStart : ∀ x w, FallsShort E ((next x).start env w) ((next' x).start env w)) :
    FallsShort E (joinWindow env limit next r) (joinWindow env limit next' r') := by
  obtain ⟨r, w⟩ := r
  rcases h with ⟨rfl, hShort⟩ | ⟨e, w', hr, rfl⟩ |
    ⟨⟨delivered, active, queue⟩, ⟨delivered', active', queue'⟩, w', hs, hr, rfl⟩
  · exact .inl ⟨rfl, joinWindow_keeps (P := fun v => w.past <:+ v.past) limit
      (fun x v hv => hv.trans (Process.past_start (next' x) v)) hShort⟩
  · rw [hr]
    exact hStart _ w'
  · obtain ⟨rfl, hActive, hQueue⟩ := hs
    have hEmpty : (active.isEmpty && queue.isEmpty) = (active'.isEmpty && queue'.isEmpty) := by
      cases hActive <;> cases hQueue <;> rfl
    rw [hr]
    dsimp only [joinWindow]
    rw [← hEmpty]
    split
    · exact hStart _ w'
    · exact .inr ⟨.window limit delivered hActive hQueue hNext, rfl⟩

end Join

/-! ## Starting -/

section Start

variable {env : Environment}

mutual

/-- Two processes that start in one world go alongside, unless the first one is left. -/
theorem Process.start_fallsShort {E : EndRelation} :
    ∀ (p p' : Process) (w : World), p.ShortOf E p' → FallsShort E (p.start env w) (p'.start env w)
  | .done r, _, w, h => by
    cases h with
    | done hEnd =>
      rw [Process.start, Process.start]
      exact .inr ⟨.ended hEnd, rfl⟩
  | .exhausted, p', w, _ => by
    rw [Process.start]
    exact .inl ⟨rfl, Process.past_start p' w⟩
  | .call r next, _, w, h => by
    cases h with
    | @call _ _ next' _ hNext =>
      rw [Process.start, Process.start]
      split
      · exact Process.start_fallsShort _ _ _ (hNext _)
      · exact .inr ⟨.waiting _ _ _ (hNext _), rfl⟩
  | .fork .all strands next, _, w, h => by
    cases h with
    | @fork _ _ strands' _ next' _ hStrands hNext =>
      rw [Process.start_fork_all, Process.start_fork_all]
      exact joinAll_fallsShort (startAll_fallsShort strands strands' w hStrands) hNext
        fun x w => Process.start_fallsShort (next x) (next' x) w (hNext x)
  | .fork (.window limit) strands next, _, w, h => by
    cases h with
    | @fork _ _ strands' _ next' _ hStrands hNext =>
      rw [Process.start_fork_window, Process.start_fork_window]
      exact joinWindow_fallsShort
        (fill_fallsShort limit strands strands' [] w hStrands List.Forall₂.nil) hNext fun x w =>
          Process.start_fallsShort (next x) (next' x) w (hNext x)

theorem startAll_fallsShort :
    ∀ (ps ps' : List Process) (w : World), List.Forall₂ (Process.ShortOf Eq) ps ps' →
      Progress.FallsShort (List.Forall₂ (Strand.Alongside Eq)) (startAll env ps w)
        (startAll env ps' w)
  | [], _, w, h => by
    cases h
    exact .going .nil w
  | p :: rest, _, w, h => by
    cases h with
    | @cons _ p' _ rest' hHead hRest =>
      rw [startAll_cons, startAll_cons]
      exact headOf_andThen_fallsShort (Process.start_fallsShort p p' w hHead) (startAll_past rest')
        fun w => startAll_fallsShort rest rest' w hRest

theorem fill_fallsShort (limit : Nat) :
    ∀ (queue queue' : List Process) {active active' : List Strand} (delivered : List Outcome)
      (w : World), List.Forall₂ (Process.ShortOf Eq) queue queue' →
      List.Forall₂ (Strand.Alongside Eq) active active' →
      Progress.FallsShort WindowState.Alongside (fill env limit delivered active queue w)
        (fill env limit delivered active' queue' w)
  | [], _, active, active', delivered, w, hQueue, hActive => by
    cases hQueue
    rw [fill, fill]
    exact .going ⟨rfl, hActive, .nil⟩ w
  | p :: rest, _, active, active', delivered, w, hQueue, hActive => by
    cases hQueue with
    | @cons _ p' _ rest' hHead hRest =>
      rw [fill_cons, fill_cons, hActive.length_eq]
      split
      · have hPlaced := settleIn_fallsShort (Process.start_fallsShort p p' w hHead) delivered
          (fun s => active ++ [s]) (fun s => active' ++ [s]) fun hs =>
            List.rel_append hActive (.cons hs .nil)
        refine hPlaced.andThen (fun s w => fill_past limit rest' s.1 s.2 w) ?_
        rintro ⟨delivered, active⟩ ⟨delivered', active'⟩ w ⟨rfl, hs⟩
        exact fill_fallsShort limit rest rest' _ w hRest hs
      · exact .going ⟨rfl, hActive, .cons hHead hRest⟩ w

end

end Start

/-! ## Going on -/

/-- Two wakeups of one place and ticket, whose strands go alongside when they go on. -/
structure Wakeup.Alongside (wake wake' : Wakeup) : Prop where
  ticket : wake.ticket = wake'.ticket
  place : wake.place = wake'.place
  past : ∀ w, w.past <:+ (wake'.go w).2.past
  go : ∀ w, FallsShort Eq (wake.go w) (wake'.go w)

theorem Wakeup.sort_alongside {ws ws' : List Wakeup} (h : List.Forall₂ Wakeup.Alongside ws ws') :
    List.Forall₂ Wakeup.Alongside (Wakeup.sort ws) (Wakeup.sort ws') := by
  refine forall₂_mergeSort h fun a a' b b' ha hb => ?_
  rw [ha.ticket, hb.ticket]

section Resume

variable {env : Environment}

theorem wakeups_alongside (now place : Nat) {active active' : List Strand}
    (h : List.Forall₂ (Strand.Alongside Eq) active active')
    (hGo : ∀ s ∈ active, ∀ s' w, s.Alongside Eq s' →
      FallsShort Eq (s.resume env w) (s'.resume env w)) :
    List.Forall₂ Wakeup.Alongside (wakeups env now place active)
      (wakeups env now place active') := by
  induction h generalizing place with
  | nil => exact .nil
  | @cons s s' rest rest' hHead _ ih =>
    have hRest := ih (place + 1) fun t ht => hGo t (List.mem_cons_of_mem _ ht)
    rw [wakeups, wakeups, ← Strand.firstTicket_of_alongside now hHead]
    cases s.firstTicket now with
    | none => exact hRest
    | some ticket =>
      exact .cons ⟨rfl, rfl, Strand.past_resume s', fun w => hGo s List.mem_cons_self s' w hHead⟩
        hRest

/-- Strands of two windows that are woken one by one. -/
theorem runWakeups_fallsShort {before : Nat} {ws ws' : List Wakeup}
    (h : List.Forall₂ Wakeup.Alongside ws ws') :
    ∀ {active active' : List Strand} (delivered : List Outcome) (w : World),
      List.Forall₂ (Strand.Alongside Eq) active active' →
      Progress.FallsShort PlacesAlongside (runWakeups before delivered active ws w)
        (runWakeups before delivered active' ws' w) := by
  induction h with
  | nil =>
    intro active active' delivered w hActive
    exact .going ⟨rfl, hActive⟩ w
  | @cons wake wake' rest rest' hHead hRest ih =>
    intro active active' delivered w hActive
    have hGo : ∀ other ∈ rest', ∀ w, w.past <:+ (other.go w).2.past := by
      intro other hOther
      obtain ⟨_, _, hSame⟩ := exists_of_forall₂ hRest.flip hOther
      exact hSame.past
    rw [runWakeups_cons, runWakeups_cons, hHead.place]
    refine (settleIn_fallsShort (hHead.go w) delivered _ _ fun hs =>
      forall₂_set_both hActive hs _).andThen
        (fun s w =>
          runWakeups_keeps (P := fun v => w.past <:+ v.past) (fun other hOther v hv =>
            hv.trans (hGo other hOther v)) before s.1 s.2 w List.suffix_rfl) ?_
    rintro ⟨os, active₁⟩ ⟨os', active₂⟩ w' ⟨rfl, hs⟩
    exact ih _ w' hs

mutual

/-- Two strands alongside each other that go on in one world stay so, unless
the first one is left. -/
theorem Strand.resume_fallsShort {E : EndRelation} :
    ∀ (s s' : Strand) (w : World), s.Alongside E s' →
      FallsShort E (s.resume env w) (s'.resume env w)
  | .ended _, _, w, h => by
    cases h with
    | ended hEnd =>
      rw [Strand.resume, Strand.resume]
      exact .inr ⟨.ended hEnd, rfl⟩
  | .exhausted, _, w, h => by cases h
  | .waiting due ticket answer next, _, w, h => by
    cases h with
    | waiting _ _ _ hNext =>
      rw [Strand.resume, Strand.resume]
      split
      · exact Process.start_fallsShort _ _ w hNext
      · exact .inr ⟨.waiting due ticket answer hNext, rfl⟩
  | .together active next, _, w, h => by
    cases h with
    | @together _ _ active' _ next' hActive hNext =>
      rw [Strand.resume_together, Strand.resume_together]
      exact joinAll_fallsShort (resumeAll_fallsShort active active' w hActive) hNext
        fun x w => Process.start_fallsShort _ _ w (hNext x)
  | .window limit delivered active queue next, _, w, h => by
    cases h with
    | @window _ _ active' _ queue' _ next' _ _ hActive hQueue hNext =>
      have hWake :=
        wakeups_alongside w.now 0 hActive fun s hs s' w => activeResume_fallsShort active s hs s' w
      rw [Strand.resume_window, Strand.resume_window]
      refine joinWindow_fallsShort
        ((runWakeups_fallsShort (Wakeup.sort_alongside hWake) delivered w hActive).andThen
          (fun s w => fill_past limit queue' s.1 s.2 w) ?_) hNext
        fun x w => Process.start_fallsShort _ _ w (hNext x)
      rintro ⟨os, rest⟩ ⟨os', rest'⟩ w' ⟨rfl, hs⟩
      exact fill_fallsShort limit queue queue' os w' hQueue hs

theorem resumeAll_fallsShort :
    ∀ (ss ss' : List Strand) (w : World), List.Forall₂ (Strand.Alongside Eq) ss ss' →
      Progress.FallsShort (List.Forall₂ (Strand.Alongside Eq)) (resumeAll env ss w)
        (resumeAll env ss' w)
  | [], _, w, h => by
    cases h
    exact .going .nil w
  | s :: rest, _, w, h => by
    cases h with
    | @cons _ s' _ rest' hHead hRest =>
      rw [resumeAll_cons, resumeAll_cons]
      exact headOf_andThen_fallsShort (Strand.resume_fallsShort s s' w hHead) (resumeAll_past rest')
        fun w => resumeAll_fallsShort rest rest' w hRest

/-- `Strand.resume_fallsShort` for any of the strands of a window. -/
theorem activeResume_fallsShort :
    ∀ (active : List Strand) (s : Strand), s ∈ active → ∀ (s' : Strand) (w : World),
    s.Alongside Eq s' →
      FallsShort Eq (s.resume env w) (s'.resume env w)
  | [], s, hs, s', w, h => by cases hs
  | t :: rest, s, hs, s', w, h => by
    rcases List.mem_cons.mp hs with hEq | hs
    · rw [hEq] at h ⊢
      exact Strand.resume_fallsShort t s' w h
    · exact activeResume_fallsShort rest s hs s' w h

end

/-- What the first run settles on, the second one settles on as well if it is
followed at least as far. -/
theorem Strand.settle_of_fallsShort {E : EndRelation} {result : Except RunError Outcome}
    {final : World} (steps : Nat) : ∀ {steps' : Nat} {r r' : Strand × World}, steps ≤ steps' →
      FallsShort E r r' →
      r.1.settle env steps r.2 = some (result, final) →
      ∃ result', E result result' ∧ r'.1.settle env steps' r'.2 = some (result', final) := by
  induction steps with
  | zero =>
    intro steps' r r' _ _ hSettle
    cases hSettle
  | succ steps ih =>
    rintro steps' ⟨s, w⟩ ⟨s', w'⟩ hSteps h hSettle
    obtain ⟨steps', rfl⟩ : ∃ n, steps' = n + 1 := ⟨steps' - 1, by omega⟩
    rcases h with ⟨hLeft, -⟩ | ⟨hSame, hWorld⟩
    · obtain rfl : s = .exhausted := hLeft
      cases hSettle
    · obtain rfl : w = w' := hWorld
      rcases Strand.settle_succ_eq_some.mp hSettle with ⟨rfl, rfl⟩ | ⟨due, hDue, hRest⟩
      · cases hSame with
        | ended hEnd => exact ⟨_, hEnd, rfl⟩
      · obtain ⟨result', hEnd, hSettle'⟩ :=
          ih (Nat.le_of_succ_le_succ hSteps) (Strand.resume_fallsShort s s' _ hSame) hRest
        refine ⟨result', hEnd, Strand.settle_succ_eq_some.mpr (.inr ⟨due, ?_, hSettle'⟩)⟩
        rw [← Strand.nextDue_of_alongside hSame, hDue]

/-- The calls that are started until time has passed so many times, the latest first. -/
def Strand.pastWithin (env : Environment) : Nat → Strand → World → List Request
  | 0, _, w => w.past
  | steps + 1, s, w =>
    match s.nextDue with
    | none => w.past
    | some due =>
      (s.resume env { w with now := due }).1.pastWithin env steps
        (s.resume env { w with now := due }).2

theorem Strand.past_pastWithin (steps : Nat) :
    ∀ (s : Strand) (w : World), w.past <:+ s.pastWithin env steps w := by
  induction steps with
  | zero => exact fun s w => List.suffix_rfl
  | succ steps ih =>
    intro s w
    rw [Strand.pastWithin]
    split
    · exact List.suffix_rfl
    · rename_i due _
      exact (Strand.past_resume s { w with now := due }).trans (ih _ _)

/-- The calls of the first run are the first ones of the second. -/
theorem Strand.pastWithin_of_fallsShort {E : EndRelation} (steps : Nat) :
    ∀ {steps' : Nat} {r r' : Strand × World}, steps ≤ steps' → FallsShort E r r' →
      r.1.pastWithin env steps r.2 <:+ r'.1.pastWithin env steps' r'.2 := by
  induction steps with
  | zero =>
    rintro steps' ⟨s, w⟩ ⟨s', w'⟩ - h
    have hPast : w.past <:+ w'.past := h.elim And.right fun hSame => by
      rw [show w = w' from hSame.2]
    exact hPast.trans (Strand.past_pastWithin steps' s' w')
  | succ steps ih =>
    rintro steps' ⟨s, w⟩ ⟨s', w'⟩ hSteps h
    rcases h with ⟨hLeft, hPast⟩ | ⟨hSame, hWorld⟩
    · obtain rfl : s = .exhausted := hLeft
      exact hPast.trans (Strand.past_pastWithin steps' s' w')
    · obtain rfl : w = w' := hWorld
      obtain ⟨steps', rfl⟩ : ∃ n, steps' = n + 1 := ⟨steps' - 1, by omega⟩
      dsimp only
      rw [Strand.pastWithin, Strand.pastWithin, ← Strand.nextDue_of_alongside hSame]
      cases s.nextDue with
      | none => exact List.suffix_rfl
      | some due => exact ih (Nat.le_of_succ_le_succ hSteps) (Strand.resume_fallsShort s s' _ hSame)

end Resume

/-! ## Whole runs -/

/-- The calls of a run as far as it is followed. -/
def Workflow.callsWithin (w : Workflow) (limits : Limits) (caller : Caller) (fuel : Nat)
    (requestId : String) (payload : Json) : List Request :=
  let env : Environment := ⟨caller, limits.activityTimeout⟩
  let start := (w.process limits fuel requestId payload).start env ⟨0, []⟩
  (start.1.pastWithin env fuel start.2).reverse

section Runs

variable {w w' : Workflow} {limits : Limits} {caller : Caller} {fuel fuel' : Nat}
  {requestId : String}
variable {payload : Json}

section ShortOf

variable {E : EndRelation} (hFuel : fuel ≤ fuel')
  (h : (w.process limits fuel requestId payload).ShortOf E
    (w'.process limits fuel' requestId payload))
include hFuel h

/-- What a run comes to, a run that is followed further comes to as well, after the same
calls and as much time. -/
theorem Workflow.run_of_shortOf {e : Execution}
    (hRun : w.run limits caller fuel requestId payload = some e) :
    ∃ e', w'.run limits caller fuel' requestId payload = some e' ∧ E e.result e'.result ∧
      e'.calls = e.calls ∧ e'.elapsed = e.elapsed := by
  obtain ⟨⟨result, world⟩, hSettle, rfl⟩ := Option.map_eq_some_iff.mp hRun
  obtain ⟨result', hEnd, hSettle'⟩ :=
    Strand.settle_of_fallsShort fuel hFuel (Process.start_fallsShort _ _ ⟨0, []⟩ h) hSettle
  exact ⟨_, Option.map_eq_some_iff.mpr ⟨_, hSettle', rfl⟩, hEnd, rfl, rfl⟩

theorem Workflow.callsWithin_of_shortOf :
    w.callsWithin limits caller fuel requestId payload <+:
      w'.callsWithin limits caller fuel' requestId payload :=
  List.reverse_prefix.mpr
    (Strand.pastWithin_of_fallsShort fuel hFuel (Process.start_fallsShort _ _ ⟨0, []⟩ h))

end ShortOf

end Runs

/-! ## Walks -/

section Walk

variable {limits : Limits}

/-- The places of a state in two runs, of which one follows the workflows inside it further. -/
theorem Context.siteAt_shortOf (limits : Limits) {fuel fuel' : Nat} (ctx : Context) (name : String)
    (hWalk : ∀ (child : Context) (inner : Workflow) (input : Json),
      (inner.walk limits fuel child inner.root input []).ShortOf Eq
        (inner.walk limits fuel' child inner.root input [])) :
    (ctx.siteAt limits fuel name).Related (Process.ShortOf Eq) (ctx.siteAt limits fuel' name) := by
  refine ⟨rfl, rfl, fun inner input => ?_⟩
  change (ctx.enter limits fuel inner input).ShortOf Eq (ctx.enter limits fuel' inner input)
  unfold Context.enter
  split
  · exact .done rfl
  · exact hWalk _ inner input

/-- With more fuel a walk is followed further. -/
theorem Workflow.walk_shortOf (fuel : Nat) :
    ∀ {fuel' : Nat} (ctx : Context) (w : Workflow) (name : String) (payload : Json)
      (visited : List String), fuel ≤ fuel' →
      (w.walk limits fuel ctx name payload visited).ShortOf Eq
        (w.walk limits fuel' ctx name payload visited) := by
  induction fuel with
  | zero =>
    intro fuel' ctx w name payload visited _
    rw [Workflow.walk]
    exact .exhausted _
  | succ fuel ih =>
    intro fuel' ctx w name payload visited hFuel
    obtain ⟨fuel', rfl⟩ : ∃ n, fuel' = n + 1 := ⟨fuel' - 1, by omega⟩
    have hLess : fuel ≤ fuel' := Nat.le_of_succ_le_succ hFuel
    have hSite := Context.siteAt_shortOf limits ctx name fun child inner input =>
      ih child inner inner.root input [] hLess
    rw [Workflow.walk_succ, Workflow.walk_succ]
    cases w.state? name with
    | none => exact .done rfl
    | some s =>
      dsimp only
      cases s.successor payload with
      | error e => exact .done rfl
      | ok next =>
        refine Process.ShortOf.andThen (fun o => ?_) (fun e => rfl)
          (State.transition_related Process.shortOf_congruence hSite rfl s payload)
        cases next with
        | none => exact .done rfl
        | some next => exact ih ctx w next o.payload _ hLess

end Walk

end Orchestration
