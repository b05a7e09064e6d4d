import Orchestration.Json.Path
import Orchestration.Proofs.Target.Addresses
import Orchestration.Target.StepProgram.Encoding

/-!
# Execution of step programs

An executor for step programs that neither map nor fork. Steps run in their order unless
one redirects; a redirect goes to the step of that name in the document. What a post
sends goes to a `Service`.

* `Step.execute` and `executeSteps` are steps up to where they redirect or return.
* `StepProgram.follow` follows a program from some of its steps on, for at most so many redirects.
* `StepProgram.Returns` is what it comes to if it is followed for long enough.

The steps and expressions that only maps and parallel states are encoded with are not executed.
-/

namespace Orchestration

/-! ## Places and expressions -/

/-- The value at a place. -/
def Place.read (vars : Entries Json) : Place → Option Json
  | .var name => vars.get? name
  | .field name path => do (Path.get (← vars.get? name) path).toOption
  | .keyed _ _ | .item _ _ => none

/-- The variables after a value was written at a place. -/
def Place.write (vars : Entries Json) (v : Json) : Place → Option (Entries Json)
  | .var name => some (vars.insert name v)
  | .field name path => do
    let written ← (Path.set (← vars.get? name) v path).toOption
    some (vars.insert name written)
  | .keyed _ _ | .item _ _ => none

/-- The value of an expression. -/
def Expr.eval (vars : Entries Json) : Expr → Option Json
  | .read p => p.read vars
  | .compare p op val => do some (.bool (← Comparison.holds? (← p.read vars) op val))
  | .append _ _ | .lastIndex _ | .isSingle _ => none

mutual

/-- A value with those of its expressions put in. -/
def Template.eval (vars : Entries Json) : Template → Option Json
  | .expr e => e.eval vars
  | .null => some .null
  | .emptyList => some (.arr [])
  | .emptyObject => some (.obj [])
  | .object fields => (fieldsEval vars fields).map .obj

/-- The values of fields, under their names. -/
def fieldsEval (vars : Entries Json) : List (String × Template) → Option (Entries Json)
  | [] => some []
  | (k, t) :: rest => do
    let v ← t.eval vars
    some ((k, v) :: (← fieldsEval vars rest))

end

/-! ## Steps -/

/-- What was posted, and where to. -/
structure HttpPost where
  url : String
  body : Json

/-- The body of a post for a run: the id of the run and what an activity is called with. -/
def messageOf (requestId payload : Json) : Json :=
  .obj [(requestIdVar, requestId), ("payload", payload)]

/-- How far a program has come: its variables and its posts so far, in order. -/
structure ProgramState where
  vars : Entries Json
  posts : List HttpPost

namespace ProgramState

/-- The same posts, with the variable set. -/
def assign (s : ProgramState) (name : String) (v : Json) : ProgramState :=
  { s with vars := s.vars.insert name v }

/-- The same variables and one more post. -/
def send (s : ProgramState) (post : HttpPost) : ProgramState :=
  { s with posts := s.posts ++ [post] }

theorem get?_assign_self (s : ProgramState) (name : String) (v : Json) :
    (s.assign name v).vars.get? name = some v :=
  Entries.get?_insert_self name v s.vars

theorem get?_assign_of_ne {name other : String} (h : other ≠ name) (s : ProgramState) (v : Json) :
    (s.assign name v).vars.get? other = s.vars.get? other :=
  Entries.get?_insert_of_ne h v s.vars

end ProgramState

/-- Where steps go on to. -/
inductive Flow where
  /-- To the step below them. -/
  | onward
  | goto (name : String)
  | ret (v : Json)

/-- The redirect of a step, if it has one. -/
def Flow.ofNext : Option String → Flow
  | some name => .goto name
  | none => .onward

/-- Writes values at places, in order. -/
def writeAll (vars : Entries Json) : List (Place × Template) → Option (Entries Json)
  | [] => some vars
  | (p, t) :: rest => do
    let v ← t.eval vars
    writeAll (← p.write vars v) rest

/-- The redirect of the first condition to hold, or the default. -/
def chooseNext (vars : Entries Json) (default : String) : List Condition → Option String
  | [] => some default
  | c :: rest =>
    match c.test.eval vars with
    | some (.bool true) => some c.next
    | some (.bool false) => chooseNext vars default rest
    | _ => none

/-- Runs steps for each value in turn, under the name of a variable. They may not redirect. -/
def executeEach (name : String) (body : ProgramState → Option (Flow × ProgramState)) :
    List Json → ProgramState → Option ProgramState
  | [], s => some s
  | v :: rest, s =>
    match body (s.assign name v) with
    | some (.onward, s) => executeEach name body rest s
    | _ => none

mutual

/-- What a step does, and where it goes on to. -/
def Step.execute (service : Service) : Step → ProgramState → Option (Flow × ProgramState)
  | .assign writes next, s => do
    let vars ← writeAll s.vars writes
    some (.ofNext next, { s with vars })
  | .post url payload result, s => do
    let body := messageOf (← s.vars.get? requestIdVar) (← payload.eval s.vars)
    let answer ← service url body
    some (.onward, (s.send ⟨url, body⟩).assign result (.single "body" answer))
  | .forEach value items steps, s => do
    let elements ← (← items.read s.vars).items?
    let s ← executeEach value (fun s => executeSteps service steps s) elements s
    some (.onward, s)
  | .switch conditions next, s => do
    let next ← chooseNext s.vars next conditions
    some (.goto next, s)
  | .goto next, s => some (.goto next, s)
  | .ret e, s => do some (.ret (← e.eval s.vars), s)
  | .runMap _ _ _, _ | .forPositions _ _ _, _ | .parallelFor _ _ _ _ _ _, _ | .parallel _ _, _
  | .when _ _, _ => none

/-- What steps do up to the first that redirects or returns. -/
def executeSteps (service : Service) :
    List (String × Step) → ProgramState → Option (Flow × ProgramState)
  | [], s => some (.onward, s)
  | (_, step) :: rest, s =>
    match step.execute service s with
    | some (.onward, s) => executeSteps service rest s
    | end? => end?

end

variable {service : Service}

theorem Step.execute_post {url result : String} {payload : Template} {s : ProgramState}
    {requestId v answer : Json} (hId : s.vars.get? requestIdVar = some requestId)
    (hPayload : payload.eval s.vars = some v)
    (hAnswer : service url (messageOf requestId v) = some answer) :
    (Step.post url payload result).execute service s =
      some (.onward,
        (s.send ⟨url, messageOf requestId v⟩).assign result (.single "body" answer)) := by
  simp [Step.execute, hId, hPayload, hAnswer]

/-- What a post has left in a variable is taken out of it. -/
theorem Step.execute_unwrap (name : String) (next : Option String) (s : ProgramState) (v : Json) :
    (Step.assign [(.var name, .expr (.read (.field name "body")))] next).execute service
        (s.assign name (.single "body" v)) =
      some (.ofNext next, (s.assign name (.single "body" v)).assign name v) := by
  have hBody : Path.get (.single "body" v) "body" = .ok v := rfl
  simp [Step.execute, writeAll, Template.eval, Expr.eval, Place.read, Place.write,
    ProgramState.assign, Entries.get?_insert_self, hBody, Except.toOption]

theorem Step.execute_forEach {value : String} {items : Place} {steps : StepProgram}
    {s s' : ProgramState} {v : Json} {elements : List Json} (hItems : items.read s.vars = some v)
    (hElements : v.items? = some elements)
    (hEach : executeEach value (executeSteps service steps) elements s = some s') :
    (Step.forEach value items steps).execute service s = some (.onward, s') := by
  simp [Step.execute, hItems, hElements, hEach]

theorem executeSteps_onward {name : String} {step : Step} {rest : StepProgram} {s s' : ProgramState}
    (h : step.execute service s = some (.onward, s')) :
    executeSteps service ((name, step) :: rest) s = executeSteps service rest s' := by
  rw [executeSteps, h]

/-- A step that redirects ends the way through the steps. -/
theorem executeSteps_goto {name next : String} {step : Step} {rest : StepProgram}
    {s s' : ProgramState} (h : step.execute service s = some (.goto next, s')) :
    executeSteps service ((name, step) :: rest) s = some (.goto next, s') := by
  rw [executeSteps, h]

/-! ## Programs -/

namespace StepProgram

/-- The steps of a document from the one of this name on. -/
def stepsFrom (main : StepProgram) (name : String) : StepProgram :=
  main.dropWhile fun step => step.1 ≠ name

/-- What a program returns from some of its steps on, and all that it has posted then. -/
def follow (service : Service) (main : StepProgram) :
    Nat → StepProgram → ProgramState → Option (Json × List HttpPost)
  | 0, _, _ => none
  | fuel + 1, steps, s =>
    match executeSteps service steps s with
    | some (.goto name, s) => follow service main fuel (main.stepsFrom name) s
    | some (.ret v, s) => some (v, s.posts)
    | _ => none

/-- What a program makes of its input. -/
def run (service : Service) (main : StepProgram) (fuel : Nat) (input : Json) :
    Option (Json × List HttpPost) :=
  main.follow service fuel main ⟨[("input", input)], []⟩

/-- Following a program for longer does not change what it returns. -/
theorem follow_mono {main : StepProgram} {fuel fuel' : Nat} {steps : StepProgram} {s : ProgramState}
    {r : Json × List HttpPost} (h : main.follow service fuel steps s = some r)
    (hFuel : fuel ≤ fuel') :
    main.follow service fuel' steps s = some r := by
  induction fuel generalizing fuel' steps s with
  | zero => cases h
  | succ fuel ih =>
    obtain ⟨fuel', rfl⟩ : ∃ n, fuel' = n + 1 := ⟨fuel' - 1, by omega⟩
    rw [follow] at h ⊢
    split at h
    · exact ih h (by omega)
    · exact h
    · cases h

/-- From these steps on, the program returns this value, and has posted this then. -/
def Returns (service : Service) (main steps : StepProgram) (s : ProgramState) (v : Json)
    (posts : List HttpPost) : Prop :=
  ∃ fuel, main.follow service fuel steps s = some (v, posts)

theorem Returns.of_ret {main steps : StepProgram} {s s' : ProgramState} {v : Json}
    (h : executeSteps service steps s = some (.ret v, s')) :
    main.Returns service steps s v s'.posts :=
  ⟨1, by rw [follow, h]⟩

theorem Returns.of_goto {main steps : StepProgram} {s s' : ProgramState} {name : String} {v : Json}
    {posts : List HttpPost} (h : executeSteps service steps s = some (.goto name, s'))
    (hRest : main.Returns service (main.stepsFrom name) s' v posts) :
    main.Returns service steps s v posts := by
  obtain ⟨fuel, hRest⟩ := hRest
  exact ⟨fuel + 1, by rw [follow, h]; exact hRest⟩

/-- In a document without two steps of one name, a redirect leads to the step of that name. -/
theorem stepsFrom_of_suffix {main block : StepProgram} {name : String} {step : Step}
    (hNodup : (Entries.keys main).Nodup) (h : (name, step) :: block <:+ main) :
    main.stepsFrom name = (name, step) :: block := by
  obtain ⟨before, rfl⟩ := h
  have hBefore : ∀ s ∈ before, s.1 ≠ name := by
    rw [Entries.keys, List.map_append, List.nodup_append] at hNodup
    exact fun s hs => hNodup.2.2 _ (List.mem_map_of_mem hs) name List.mem_cons_self
  rw [stepsFrom, List.dropWhile_append_of_pos (by simpa using hBefore)]
  simp

/-- A redirect to the first of some steps leads to these. -/
theorem stepsFrom_of_infix {main block : StepProgram} {name : String} {step : Step}
    (hNodup : (Entries.keys main).Nodup) (h : (name, step) :: block <:+: main) :
    ∃ rest, main.stepsFrom name = (name, step) :: (block ++ rest) := by
  obtain ⟨before, rest, rfl⟩ := h
  refine ⟨rest, stepsFrom_of_suffix hNodup ?_⟩
  exact ⟨before, by simp⟩

/-- All steps of the document that has these between its first and its last. -/
def mainSteps (rootStep : String) (p : StepProgram) : StepProgram :=
  (mainStart, initAction rootStep) :: (p ++ [(mainEnd, .ret (.read (.var mainPayload)))])

/-- The document that has these as all its steps. -/
def mainDocument (main : StepProgram) : Json :=
  .single "main" (.obj [("params", .arr [.str "input"]), ("steps", .arr (stepsToJson main))])

theorem stepsToJson_append (p q : StepProgram) :
    stepsToJson (p ++ q) = stepsToJson p ++ stepsToJson q := by
  induction p with
  | nil => rfl
  | cons step rest ih => simp [stepsToJson, ih]

theorem stepsToJson_eq_map (p : StepProgram) :
    stepsToJson p = p.fragments.map fun (name, body) => Json.single name body := by
  induction p with
  | nil => rfl
  | cons step rest ih =>
    rw [stepsToJson, ih]
    rfl

theorem toJson_eq_mainDocument (rootStep : String) (p : StepProgram) :
    toJson rootStep p = mainDocument (mainSteps rootStep p) := by
  rw [toJson, assemble, ← stepsToJson_eq_map, mainDocument, mainSteps, stepsToJson,
    stepsToJson_append]
  rfl

end StepProgram

end Orchestration
