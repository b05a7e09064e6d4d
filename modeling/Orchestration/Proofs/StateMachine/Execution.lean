import Mathlib.Data.List.Forall2
import Orchestration.Json.Path
import Orchestration.Proofs.Target.Addresses
import Orchestration.Target.StateMachine.Encoding

/-!
# Execution of state machines

An executor for state machines: what a machine makes of its input, with what comes back from
resources given as a function (`Service`). Numbers are compared as doubles. A reference `$.p` reads
the value at the path `p`, a reference `$[i]` an item of an array.

* `MachineState.step` is one state, given what the machines inside it come to.
* `Machine.runFrom` follows a machine from a state on, for at most so many states in a row, and the
  machines inside it for as many.
* `Machine.Ends` is what a machine comes to if it is followed for long enough.
  `Machine.Ends.of_step` puts it together from steps.
-/

namespace Orchestration

/-! ## Data -/

/-- The value at a reference. -/
def Reference.read (data : Json) : Reference → Option Json
  | .path p => (Path.get data p).toOption
  | .item i => data.items?.bind fun items => items[i]?

theorem Reference.read_path {data v : Json} {path : String} (h : Path.get data path = .ok v) :
    (Reference.path path).read data = some v := by
  rw [Reference.read, h]
  rfl

/-- The value of a source, for an element of the array. -/
def ParameterSource.read (data element : Json) : ParameterSource → Option Json
  | .element => some element
  | .place r => r.read data

/-- The values of named sources. -/
def readAll {α : Type} (read : α → Option Json) : List (String × α) → Option (Entries Json)
  | [] => some []
  | (k, a) :: rest => do
    let v ← read a
    some ((k, v) :: (← readAll read rest))

/-- The input of an iteration. -/
def iterationInput (data : Json) (parameters : List (String × ParameterSource)) (element : Json) :
    Option Json :=
  match parameters with
  | [] => some element
  | ps => (readAll (ParameterSource.read data element) ps).map fun es => .obj (Entries.ofWrites es)

/-- The data after a map whose results are these. -/
def ResultPlace.store (data results : Json) : ResultPlace → Option Json
  | .output => some results
  | .place (.path p) => (Path.set data results p).toOption
  | .place (.item _) => none
  | .dropped => some data

/-! ## Choices -/

/-- The operator of a comparator that begins with a word. -/
def operatorOf (word comparator : String) : Option Comparison :=
  Comparison.all.find? fun op => decide (comparator = word ++ op.name)

/-- Whether two numbers stand so to each other, as doubles; no other values do. -/
def numbersHold? (op : Option Comparison) (v val : Json) : Option Bool :=
  match v.toFloat?, val.toFloat? with
  | some a, some b => op.map fun op => op.admits (a.compare b)
  | _, _ => some false

/-- Whether two texts stand so to each other; no other values do. -/
def textsHold? (op : Option Comparison) (v val : Json) : Option Bool :=
  match v.text?, val.text? with
  | some a, some b => op.map fun op => op.admits (Json.orderText a.toList b.toList)
  | _, _ => some false

def Json.truth? : Json → Option Bool
  | .bool b => some b
  | _ => none

/-- Whether a comparator holds between a value and a constant. -/
def comparatorHolds? (comparator : String) (v val : Json) : Option Bool :=
  if comparator = "BooleanEquals" then some (v.truth? == val.truth?)
  else if "Numeric".toList.isPrefixOf comparator.toList then
    numbersHold? (operatorOf "Numeric" comparator) v val
  else if "String".toList.isPrefixOf comparator.toList then
    textsHold? (operatorOf "String" comparator) v val
  else none

/-- Whether a test holds. -/
def Rule.holds? (data : Json) : Rule → Option Bool
  | .isNull subject => (subject.read data).map fun
    | .null => true
    | _ => false
  | .compare subject comparator val => do comparatorHolds? comparator (← subject.read data) val
  | .oneItem =>
    some (((Reference.item 0).read data).isSome && !((Reference.item 1).read data).isSome)

/-- The successor that the first test to hold gives, or the default. -/
def chooseRule (data : Json) (default : String) : List Choice → Option String
  | [] => some default
  | c :: rest =>
    match c.rule.holds? data with
    | none => none
    | some true => some c.next
    | some false => chooseRule data default rest

/-! ## States and machines -/

/-- Where a state goes on to and with which data, given what the machines inside it come to. -/
def MachineState.step (service : Service) (inner : Machine → Json → Option Json) (data : Json) :
    MachineState → Option (Option String × Json)
  | .task resource next => (service resource data).map fun v => (next, v)
  | .choice choices default => (chooseRule data default choices).map fun next => (some next, data)
  | .map items parameters iterator _ result next => do
    let elements ← (← items.read data).items?
    let inputs ← elements.mapM (iterationInput data parameters)
    let results ← inputs.mapM (inner iterator)
    some (next, ← result.store data (.arr results))
  | .parallel branches selector next => do
    let results ← branches.mapM fun b => inner b data
    let es ← readAll (Reference.read (.arr results)) selector
    some (next, .obj (Entries.ofWrites es))
  | .pass input => (input.read data).map fun v => (none, v)
  | .succeed => some (none, data)

/-- What a machine comes to from a state on. -/
def Machine.runFrom (service : Service) : Nat → Machine → String → Json → Option Json
  | 0, _, _, _ => none
  | fuel + 1, m, name, data => do
    let s ← Entries.get? name m.states
    let (next, data) ← s.step service (fun b input => runFrom service fuel b b.startAt input) data
    match next with
    | none => some data
    | some next => runFrom service fuel m next data

/-- What a machine makes of its input. -/
def Machine.run (service : Service) (fuel : Nat) (m : Machine) (input : Json) : Option Json :=
  m.runFrom service fuel m.startAt input

/-! ## Following a machine for longer -/

theorem mapM_eq_some_iff {α β : Type} {f : α → Option β} {l : List α} {r : List β} :
    l.mapM f = some r ↔ List.Forall₂ (fun a b => f a = some b) l r := by
  induction l generalizing r with
  | nil =>
    rw [List.mapM_nil, List.forall₂_nil_left_iff]
    exact ⟨fun h => (Option.some.inj h).symm, fun h => congrArg some h.symm⟩
  | cons a rest ih =>
    rw [List.mapM_cons, List.forall₂_cons_left_iff]
    constructor
    · intro h
      obtain ⟨b, hb, h⟩ := Option.bind_eq_some_iff.mp h
      obtain ⟨bs, hbs, h⟩ := Option.bind_eq_some_iff.mp h
      cases h
      exact ⟨b, bs, hb, ih.mp hbs, rfl⟩
    · rintro ⟨b, bs, hb, hbs, rfl⟩
      simp [hb, ih.mpr hbs]

/-- A list is gone through alike if each of its elements is. -/
theorem mapM_mono {α β : Type} {f g : α → Option β} (h : ∀ a b, f a = some b → g a = some b)
    {l : List α} {r : List β} (hr : l.mapM f = some r) : l.mapM g = some r :=
  mapM_eq_some_iff.mpr ((mapM_eq_some_iff.mp hr).imp h)

variable {service : Service}

theorem MachineState.step_mono {inner inner' : Machine → Json → Option Json}
    (h : ∀ m input v, inner m input = some v → inner' m input = some v) {s : MachineState}
    {data : Json} {r : Option String × Json} (hr : s.step service inner data = some r) :
    s.step service inner' data = some r := by
  cases s with
  | map items parameters iterator maxConcurrency result next =>
    obtain ⟨v, hv, hr⟩ := Option.bind_eq_some_iff.mp hr
    obtain ⟨elements, hElements, hr⟩ := Option.bind_eq_some_iff.mp hr
    obtain ⟨inputs, hInputs, hr⟩ := Option.bind_eq_some_iff.mp hr
    obtain ⟨results, hResults, hr⟩ := Option.bind_eq_some_iff.mp hr
    rw [MachineState.step, hv]
    simp only [Option.bind_eq_bind, Option.bind_some, hElements, hInputs,
      mapM_mono (h iterator) hResults]
    exact hr
  | parallel branches selector next =>
    obtain ⟨results, hResults, hr⟩ := Option.bind_eq_some_iff.mp hr
    rw [MachineState.step, mapM_mono (fun b => h b data) hResults]
    exact hr
  | _ => exact hr

/-- Following a machine for longer does not change what it comes to. -/
theorem Machine.runFrom_mono {fuel fuel' : Nat} {m : Machine} {name : String} {data v : Json}
    (h : m.runFrom service fuel name data = some v) (hFuel : fuel ≤ fuel') :
    m.runFrom service fuel' name data = some v := by
  induction fuel generalizing fuel' m name data v with
  | zero => cases h
  | succ fuel ih =>
    obtain ⟨fuel', rfl⟩ : ∃ n, fuel' = n + 1 := ⟨fuel' - 1, by omega⟩
    obtain ⟨s, hs, h⟩ := Option.bind_eq_some_iff.mp h
    obtain ⟨⟨next, data'⟩, hStep, h⟩ := Option.bind_eq_some_iff.mp h
    have hInner (b : Machine) (input u : Json)
        (h : b.runFrom service fuel b.startAt input = some u) :
        b.runFrom service fuel' b.startAt input = some u :=
      ih h (by omega)
    have hStep' := MachineState.step_mono hInner hStep
    rw [Machine.runFrom, hs]
    simp only [Option.bind_eq_bind, Option.bind_some, hStep']
    cases next with
    | none => exact h
    | some next => exact ih h (by omega)

/-- A machine comes to this value from a state on. -/
def Machine.Ends (service : Service) (m : Machine) (name : String) (data v : Json) : Prop :=
  ∃ fuel, m.runFrom service fuel name data = some v

/-- A state goes on so if the machines inside it are followed for long enough. -/
def MachineState.Goes (service : Service) (s : MachineState) (data : Json) (next : Option String)
    (data' : Json) : Prop :=
  ∃ fuel, s.step service (fun b input => b.runFrom service fuel b.startAt input) data =
    some (next, data')

/-- What comes after a state: the machine ends with the data, or comes to a
value from a state on. -/
def Machine.Continues (service : Service) (m : Machine) (next : Option String)
    (data v : Json) : Prop :=
  match next with
  | none => v = data
  | some next => m.Ends service next data v

/-- A state and what comes after it. -/
theorem Machine.Ends.of_state {m : Machine} {name : String} {next : Option String}
    {s : MachineState} {data data' v : Json} (hState : Entries.get? name m.states = some s)
    (hStep : s.Goes service data next data') (hRest : m.Continues service next data' v) :
    m.Ends service name data v := by
  obtain ⟨fuel, hStep⟩ := hStep
  cases next with
  | none =>
    cases hRest
    refine ⟨fuel + 1, ?_⟩
    rw [Machine.runFrom, hState]
    simp only [Option.bind_eq_bind, Option.bind_some, hStep]
  | some next =>
    obtain ⟨fuel', hRest⟩ := hRest
    have hInner (b : Machine) (input u : Json)
        (h : b.runFrom service fuel b.startAt input = some u) :
        b.runFrom service (max fuel fuel') b.startAt input = some u :=
      Machine.runFrom_mono h (Nat.le_max_left fuel fuel')
    have hStep' := MachineState.step_mono hInner hStep
    refine ⟨max fuel fuel' + 1, ?_⟩
    rw [Machine.runFrom, hState]
    simp only [Option.bind_eq_bind, Option.bind_some, hStep']
    exact Machine.runFrom_mono hRest (Nat.le_max_right fuel fuel')

/-! ## Steps of states -/

theorem MachineState.Goes.task {resource : String} {next : Option String} {data v : Json}
    (h : service resource data = some v) :
    (MachineState.task resource next).Goes service data next v :=
  ⟨0, by rw [MachineState.step, h]; rfl⟩

theorem MachineState.Goes.choice {choices : List Choice} {default next : String} {data : Json}
    (h : chooseRule data default choices = some next) :
    (MachineState.choice choices default).Goes service data (some next) data :=
  ⟨0, by rw [MachineState.step, h]; rfl⟩

theorem MachineState.Goes.pass {input : Reference} {data v : Json} (h : input.read data = some v) :
    (MachineState.pass input).Goes service data none v :=
  ⟨0, by rw [MachineState.step, h]; rfl⟩

theorem MachineState.Goes.succeed (data : Json) :
    MachineState.succeed.Goes service data none data :=
  ⟨0, rfl⟩

/-- What each of some machines comes to, all come to if they are followed for equally long. -/
theorem exists_fuel_of_forall₂ {α : Type} (machine : α → Machine) (input : α → Json) {l : List α}
    {vs : List Json}
    (h : List.Forall₂ (fun a v => (machine a).Ends service (machine a).startAt (input a) v) l vs) :
    ∃ fuel, l.mapM (fun a => (machine a).runFrom service fuel (machine a).startAt (input a)) =
      some vs := by
  induction h with
  | nil => exact ⟨0, rfl⟩
  | @cons a v rest vs hHead hRest ih =>
    obtain ⟨fuel, hHead⟩ := hHead
    obtain ⟨fuel', hRest⟩ := ih
    refine ⟨max fuel fuel', mapM_eq_some_iff.mpr (List.Forall₂.cons ?_ ?_)⟩
    · exact Machine.runFrom_mono hHead (Nat.le_max_left fuel fuel')
    · exact (mapM_eq_some_iff.mp hRest).imp fun b u hb =>
        Machine.runFrom_mono hb (Nat.le_max_right fuel fuel')

theorem MachineState.Goes.map {items : Reference} {parameters : List (String × ParameterSource)}
    {iterator : Machine} {maxConcurrency : Option Nat} {result : ResultPlace} {next : Option String}
    {data v data' : Json} {elements inputs results : List Json} (hItems : items.read data = some v)
    (hElements : v.items? = some elements)
    (hInputs : elements.mapM (iterationInput data parameters) = some inputs)
    (hResults : List.Forall₂ (iterator.Ends service iterator.startAt) inputs results)
    (hStore : result.store data (.arr results) = some data') :
    (MachineState.map items parameters iterator maxConcurrency result next).Goes service data next
      data' := by
  obtain ⟨fuel, hFuel⟩ := exists_fuel_of_forall₂ (fun _ => iterator) id hResults
  refine ⟨fuel, ?_⟩
  rw [MachineState.step, hItems]
  simp only [Option.bind_eq_bind, Option.bind_some, hElements, hInputs, id] at hFuel ⊢
  simp [hFuel, hStore]

theorem MachineState.Goes.parallel {branches : List Machine} {selector : List (String × Reference)}
    {next : Option String} {data : Json} {results : List Json} {es : Entries Json}
    (hResults : List.Forall₂ (fun b v => b.Ends service b.startAt data v) branches results)
    (hSelect : readAll (Reference.read (.arr results)) selector = some es) :
    (MachineState.parallel branches selector next).Goes service data next
      (.obj (Entries.ofWrites es)) := by
  obtain ⟨fuel, hFuel⟩ := exists_fuel_of_forall₂ id (fun _ => data) hResults
  refine ⟨fuel, ?_⟩
  rw [MachineState.step]
  simp only [id] at hFuel
  simp [hFuel, hSelect]

end Orchestration
