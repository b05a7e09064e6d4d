import Orchestration.Run.Process

/-!
# Processes in time

Runs a process against a caller on a clock that only moves while every strand waits. A call starts
when its strand comes to it and takes as long as its response says, at most the timeout.

* `Process.start` runs a process up to where it waits; what is left is a `Strand`.
* `Strand.resume` goes on with the calls that are due.
* `Strand.settle` lets time pass until the run is over.

Calls that are due at one time are answered in the order in which they were started.
-/

namespace Orchestration

/-- What a run is run against. -/
structure Environment where
  caller : Caller
  /-- How many milliseconds a call may take. -/
  timeout : Option Nat

/-- The time of a run in milliseconds, and the calls started so far, the latest first. -/
structure World where
  now : Nat
  past : List Request

/-- A process under way. -/
inductive Strand where
  | ended (result : Except RunError Outcome)
  /-- A call that is answered at a time; `ticket` counts the calls started before it. -/
  | waiting (due ticket : Nat) (answer : Except ActivityError Json)
      (next : Except ActivityError Json → Process)
  | together (strands : List Strand) (next : Except RunError (List Outcome) → Process)
  /-- Results delivered, the latest first; strands started after them; processes not started yet. -/
  | window (limit : Nat) (delivered : List Outcome) (active : List Strand) (queue : List Process)
      (next : Except RunError (List Outcome) → Process)
  /-- The run was not followed any further. -/
  | exhausted

namespace Environment

/-- What comes back from a call within the timeout, and after how long. -/
def respond (env : Environment) (w : World) (r : Request) : Response :=
  let response := env.caller w.past r
  match env.timeout with
  | none => response
  | some limit =>
    if limit < response.delay then ⟨.error (.timedOut r.activity limit), limit⟩ else response

end Environment

/-- How far strands that run side by side have come. -/
inductive Progress (α : Type) where
  | failed (e : RunError)
  | going (state : α)
  | exhausted

/-! ## Delivery in order -/

/-- A window under way. -/
structure WindowState where
  delivered : List Outcome
  active : List Strand
  queue : List Process

/-- Delivers what has ended at the head of the strands. -/
def deliver (delivered : List Outcome) : List Strand → Progress (List Outcome × List Strand)
  | .ended (.ok o) :: rest => deliver (o :: delivered) rest
  | .ended (.error e) :: _ => .failed e
  | active => .going (delivered, active)

/-- The outcomes of strands that have all ended well. -/
def outcomes? : List Strand → Option (List Outcome)
  | [] => some []
  | .ended (.ok o) :: rest => (outcomes? rest).map (o :: ·)
  | _ => none

/-! ## Starting -/

mutual

/-- Runs a process up to where it waits. -/
def Process.start (env : Environment) : Process → World → Strand × World
  | .done result, w => (.ended result, w)
  | .exhausted, w => (.exhausted, w)
  | .call r next, w =>
    let response := env.respond w r
    let after : World := { w with past := r :: w.past }
    if response.delay = 0 then (next response.answer).start env after
    else (.waiting (w.now + response.delay) w.past.length response.answer next, after)
  | .fork .all strands next, w =>
    match startAll env strands w with
    | (.failed e, w) => (next (.error e)).start env w
    | (.exhausted, w) => (.exhausted, w)
    | (.going started, w) =>
      match outcomes? started with
      | some results => (next (.ok results)).start env w
      | none => (.together started next, w)
  | .fork (.window limit) strands next, w =>
    match fill env limit [] [] strands w with
    | (.failed e, w) => (next (.error e)).start env w
    | (.exhausted, w) => (.exhausted, w)
    | (.going s, w) =>
      if s.active.isEmpty && s.queue.isEmpty then (next (.ok s.delivered.reverse)).start env w
      else (.window limit s.delivered s.active s.queue next, w)

/-- Starts processes in order, up to the first that fails at once. -/
def startAll (env : Environment) : List Process → World → Progress (List Strand) × World
  | [], w => (.going [], w)
  | p :: rest, w =>
    match p.start env w with
    | (.ended (.error e), w) => (.failed e, w)
    | (.exhausted, w) => (.exhausted, w)
    | (s, w) =>
      match startAll env rest w with
      | (.going ss, w) => (.going (s :: ss), w)
      | (.failed e, w) => (.failed e, w)
      | (.exhausted, w) => (.exhausted, w)

/-- Starts queued processes while there is room in the window. -/
def fill (env : Environment) (limit : Nat) (delivered : List Outcome) (active : List Strand) :
    List Process → World → Progress WindowState × World
  | [], w => (.going ⟨delivered, active, []⟩, w)
  | p :: rest, w =>
    if active.length < limit then
      match p.start env w with
      | (.exhausted, w) => (.exhausted, w)
      | (s, w) =>
        match deliver delivered (active ++ [s]) with
        | .failed e => (.failed e, w)
        | .exhausted => (.exhausted, w)
        | .going (delivered, active) => fill env limit delivered active rest w
    else (.going ⟨delivered, active, p :: rest⟩, w)

end

/-! ## Waiting -/

mutual

def Strand.nextDue : Strand → Option Nat
  | .waiting due _ _ _ => some due
  | .together strands _ => nextDueOf strands
  | .window _ _ active _ _ => nextDueOf active
  | .ended _ | .exhausted => none

/-- The time of the next answer to one of the strands. -/
def nextDueOf : List Strand → Option Nat
  | [] => none
  | s :: rest =>
    match s.nextDue, nextDueOf rest with
    | some a, some b => some (min a b)
    | some a, none => some a
    | none, b => b

end

mutual

/-- The least ticket of the calls that are due. -/
def Strand.firstTicket (now : Nat) : Strand → Option Nat
  | .waiting due ticket _ _ => if due ≤ now then some ticket else none
  | .together strands _ => firstTicketOf now strands
  | .window _ _ active _ _ => firstTicketOf now active
  | .ended _ | .exhausted => none

/-- The least ticket of the calls of the strands that are due. -/
def firstTicketOf (now : Nat) : List Strand → Option Nat
  | [] => none
  | s :: rest =>
    match s.firstTicket now, firstTicketOf now rest with
    | some a, some b => some (min a b)
    | some a, none => some a
    | none, b => b

end

/-! ## Going on -/

/-- A strand of a window that has an answer: its ticket, its place, and how it goes on. -/
structure Wakeup where
  ticket : Nat
  place : Nat
  go : World → Strand × World

/-- The wakeups in the order of their tickets. -/
def Wakeup.sort (wakeups : List Wakeup) : List Wakeup :=
  wakeups.mergeSort fun a b => a.ticket ≤ b.ticket

/-- Lets the woken strands of a window go on, in order. Places count from the first result that was
not delivered when they were woken; `before` results were delivered then. -/
def runWakeups (before : Nat) (delivered : List Outcome) (active : List Strand) :
    List Wakeup → World → Progress (List Outcome × List Strand) × World
  | [], w => (.going (delivered, active), w)
  | wake :: rest, w =>
    match wake.go w with
    | (.exhausted, w) => (.exhausted, w)
    | (s, w) =>
      match deliver delivered (active.set (wake.place - (delivered.length - before)) s) with
      | .failed e => (.failed e, w)
      | .exhausted => (.exhausted, w)
      | .going (delivered, active) => runWakeups before delivered active rest w

mutual

/-- Goes on with the calls that are due, up to where the strand waits again. -/
def Strand.resume (env : Environment) : Strand → World → Strand × World
  | .ended result, w => (.ended result, w)
  | .exhausted, w => (.exhausted, w)
  | .waiting due ticket answer next, w =>
    if due ≤ w.now then (next answer).start env w else (.waiting due ticket answer next, w)
  | .together strands next, w =>
    match resumeAll env strands w with
    | (.failed e, w) => (next (.error e)).start env w
    | (.exhausted, w) => (.exhausted, w)
    | (.going strands, w) =>
      match outcomes? strands with
      | some results => (next (.ok results)).start env w
      | none => (.together strands next, w)
  | .window limit delivered active queue next, w =>
    match runWakeups delivered.length delivered active
        (Wakeup.sort (wakeups env w.now 0 active)) w with
    | (.failed e, w) => (next (.error e)).start env w
    | (.exhausted, w) => (.exhausted, w)
    | (.going (delivered, active), w) =>
      match fill env limit delivered active queue w with
      | (.failed e, w) => (next (.error e)).start env w
      | (.exhausted, w) => (.exhausted, w)
      | (.going s, w) =>
        if s.active.isEmpty && s.queue.isEmpty then (next (.ok s.delivered.reverse)).start env w
        else (.window limit s.delivered s.active s.queue next, w)

/-- Lets strands go on in order, up to the first that fails. -/
def resumeAll (env : Environment) : List Strand → World → Progress (List Strand) × World
  | [], w => (.going [], w)
  | s :: rest, w =>
    match s.resume env w with
    | (.ended (.error e), w) => (.failed e, w)
    | (.exhausted, w) => (.exhausted, w)
    | (s, w) =>
      match resumeAll env rest w with
      | (.going ss, w) => (.going (s :: ss), w)
      | (.failed e, w) => (.failed e, w)
      | (.exhausted, w) => (.exhausted, w)

/-- The strands of a window that have an answer; the first is at the given place. -/
def wakeups (env : Environment) (now : Nat) (place : Nat) : List Strand → List Wakeup
  | [] => []
  | s :: rest =>
    let later := wakeups env now (place + 1) rest
    match s.firstTicket now with
    | some ticket => ⟨ticket, place, fun w => s.resume env w⟩ :: later
    | none => later

end

/-- Lets time pass from answer to answer until the run is over, for at most so many times. There is
no result if the run was not followed to its end. -/
def Strand.settle (env : Environment) :
    Nat → Strand → World → Option (Except RunError Outcome × World)
  | 0, _, _ => none
  | fuel + 1, s, w =>
    match s with
    | .ended result => some (result, w)
    | .exhausted => none
    | s =>
      match s.nextDue with
      | none => none
      | some due =>
        let (s, w) := s.resume env { w with now := due }
        s.settle env fuel w

end Orchestration
