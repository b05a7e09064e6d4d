import Orchestration.Proofs.StateMachine.Closure
import Orchestration.Proofs.StateMachine.Simulation
import Orchestration.Target.Compiler

/-!
# Execution of documents

An executor for documents, which has nothing but the JSON value of a machine to go by. Whatever
stands in front of a path as `$.` and behind a key as `.$` is taken off as often as it stands there,
so a path of a workflow that begins with `$.` and a key that ends with `.$` are read as others.

* `Document.step` is one state, `Document.runFrom` follows a document from a state on.
* `MachineState.Legible`, `State.Legible`: no path and no key is read as another.
* `Document.runFrom_toJson`: of a legible machine the executor makes what its document says.
* `Workflow.legible_of_holds`: the machines inside the one of a legible workflow are legible.
* `Workflow.exists_document_run`: a document comes to the payload with which a run ends well.
-/

namespace Orchestration

namespace StateMachine

namespace Document

variable {data item results : Json}

/-! ## Texts -/

/-- What comes after all pairs `$.` at the front. -/
def bare : List Char → List Char
  | '$' :: '.' :: rest => bare rest
  | cs => cs

/-- The path that a text stands for. -/
def pathOf (text : String) : String := .ofList (bare text.toList)

/-- The name of a field without any `.$` at its end. -/
def keyOf (key : String) : String := .ofList (bare key.toList.reverse).reverse

/-- The number in the brackets of a reference to an item. -/
def index? (cs : List Char) : Option Nat :=
  let digits := match cs with
    | '+' :: digits => digits
    | digits => digits
  if digits ≠ [] ∧ digits.all Char.isDigit then some (Json.Numeral.digitsValue digits) else none

/-- The reference of a text; there is none if no number stands in the brackets. -/
def reference? (text : String) : Option Reference :=
  match (text.toList.dropPrefix? ['$', '[']).bind fun rest => rest.dropSuffix? [']'] with
  | some inside => (index? inside).map .item
  | none => some (.path (pathOf text))

/-- The value at the reference of a text. -/
def valueAt (data : Json) (text : String) : Option Json := do (← reference? text).read data

/-- The value of a source: the item of an iteration, or a value in the data. -/
def sourceValue (data item : Json) (text : String) : Option Json :=
  if text = "$$.Map.Item.Value" then some item else valueAt data text

/-- The text of a field. -/
def textAt (name : String) (v : Json) : Option String := (v.fieldOrNull name).text?

/-! ## Rules -/

/-- Whether the test of a rule holds. -/
def testHolds? (data : Json) (rule : Json) : Option Bool := do
  let subject ← textAt "Variable" rule
  match (rule.fieldOrNull "IsPresent").truth? with
  | some present => (reference? subject).map fun r => (r.read data).isSome == present
  | none =>
    let v ← valueAt data subject
    let (comparator, val) ← (← rule.fields?).find? fun f => f.1 ≠ "Variable" ∧ f.1 ≠ "Next"
    if comparator = "IsNull" then
      match v with
      | .null => some true
      | _ => some false
    else comparatorHolds? comparator v val

mutual

/-- Whether a rule holds: all rules that it joins, or else its test. -/
def ruleHolds? (data : Json) : Json → Option Bool
  | .obj fields =>
    match joined? data fields with
    | some holds? => holds?
    | none => testHolds? data (.obj fields)
  | _ => none

/-- Whether the rules hold that these fields join, if they join some. -/
def joined? (data : Json) : List (String × Json) → Option (Option Bool)
  | [] => none
  | (name, .arr rules) :: rest =>
    if name = "And" then some (allHold? data rules) else joined? data rest
  | (name, _) :: rest => if name = "And" then none else joined? data rest

/-- Whether all of the rules hold; those after one that does not are not looked at. -/
def allHold? (data : Json) : List Json → Option Bool
  | [] => some true
  | rule :: rest =>
    match ruleHolds? data rule with
    | some true => allHold? data rest
    | other => other

end

/-- Where the first rule to hold goes on to, or the default. -/
def chooseNext (data : Json) (default : Option String) : List Json → Option String
  | [] => default
  | rule :: rest =>
    match ruleHolds? data rule with
    | none => none
    | some true => textAt "Next" rule
    | some false => chooseNext data default rest

/-! ## States and documents -/

/-- An object of the values that sources have, under the names of their fields. -/
def collect (value : String → Option Json) (fields : Entries Json) : Option Json := do
  let values ← fields.mapM fun f => do some (keyOf f.1, ← value (← f.2.text?))
  some (.obj (Entries.ofWrites values))

/-- The input of the iteration for an item. -/
def inputOf (data state item : Json) : Option Json :=
  match state.field? "Parameters" with
  | none => some item
  | some parameters => do collect (sourceValue data item) (← parameters.fields?)

/-- The data after a map state whose results are these. -/
def store (data state results : Json) : Option Json :=
  match state.field? "ResultPath" with
  | none => some results
  | some (.str text) => (Path.set data results (pathOf text)).toOption
  | some _ => some data

/-- Where a state goes on to and with which data, given what the documents inside it come to. -/
def step (service : Service) (inner : Json → Json → Option Json) (data state : Json) :
    Option (Option String × Json) := do
  let next := textAt "Next" state
  match ← textAt "Type" state with
  | "Task" => some (next, ← service (← textAt "Resource" state) data)
  | "Choice" =>
    let rules ← (state.fieldOrNull "Choices").items?
    some (some (← chooseNext data (textAt "Default" state) rules), data)
  | "Succeed" => some (none, data)
  | "Pass" =>
    match textAt "InputPath" state with
    | some path => some (next, ← valueAt data path)
    | none => some (next, data)
  | "Parallel" =>
    let results ← (← (state.fieldOrNull "Branches").items?).mapM fun b => inner b data
    some (next,
      ← collect (valueAt (.arr results)) (← (state.fieldOrNull "ResultSelector").fields?))
  | "Map" =>
    let items ← (← valueAt data (← textAt "ItemsPath" state)).items?
    let inputs ← items.mapM (inputOf data state)
    let results ← inputs.mapM (inner (state.fieldOrNull "Iterator"))
    some (next, ← store data state (.arr results))
  | _ => none

/-- What a document comes to from a state on. -/
def runFrom (service : Service) : Nat → Json → String → Json → Option Json
  | 0, _, _, _ => none
  | fuel + 1, document, name, data => do
    let inner (document input : Json) : Option Json := do
      runFrom service fuel document (← textAt "StartAt" document) input
    let (next, data) ← step service inner data ((document.fieldOrNull "States").fieldOrNull name)
    match next with
    | none => some data
    | some next => runFrom service fuel document next data

/-- What a document makes of its input. -/
def run (service : Service) (fuel : Nat) (document input : Json) : Option Json := do
  runFrom service fuel document (← textAt "StartAt" document) input

end Document

end StateMachine

/-! ## What is read as it is written -/

/-- A path with no `$.` at its front. -/
def LegiblePath (p : String) : Prop := ¬ ['$', '.'] <+: p.toList

/-- A key with no `.$` at its end. -/
def LegibleKey (k : String) : Prop := ¬ ['.', '$'] <:+ k.toList

instance (p : String) : Decidable (LegiblePath p) := inferInstanceAs (Decidable (¬ _))

instance (k : String) : Decidable (LegibleKey k) := inferInstanceAs (Decidable (¬ _))

def Reference.Legible : Reference → Prop
  | .path p => LegiblePath p
  | .item _ => True

def ParameterSource.Legible : ParameterSource → Prop
  | .element => True
  | .place r => r.Legible

/-- Results are put at paths only. -/
def ResultPlace.Legible : ResultPlace → Prop
  | .output | .dropped => True
  | .place (.path p) => LegiblePath p
  | .place (.item _) => False

/-- No comparator has the name of another field of a rule. -/
def Rule.Legible : Rule → Prop
  | .isNull subject => subject.Legible
  | .compare subject comparator _ =>
    subject.Legible ∧ comparator ∉ ["Variable", "Next", "And", "IsPresent", "IsNull"]
  | .oneItem => True

/-- The texts of the state are read as they are written. -/
def MachineState.Legible : MachineState → Prop
  | .task _ _ | .succeed => True
  | .choice choices _ => ∀ c ∈ choices, c.rule.Legible
  | .map items parameters _ _ result _ =>
    items.Legible ∧ (∀ e ∈ parameters, LegibleKey e.1 ∧ e.2.Legible) ∧ result.Legible
  | .parallel _ selector _ => ∀ e ∈ selector, LegibleKey e.1 ∧ e.2.Legible
  | .pass input => input.Legible

namespace StateMachine

namespace Document

variable {data item results : Json}

theorem bare_eq_self {cs : List Char} (h : ¬ ['$', '.'] <+: cs) : bare cs = cs := by
  unfold bare
  split
  · exact absurd ⟨_, rfl⟩ h
  · rfl

theorem pathOf_append {p : String} (h : LegiblePath p) : pathOf ("$." ++ p) = p := by
  have hText : ("$." ++ p).toList = '$' :: '.' :: p.toList := String.toList_append
  rw [pathOf, hText, bare, bare_eq_self h, String.ofList_toList]

theorem keyOf_append {k : String} (h : LegibleKey k) : keyOf (k ++ ".$") = k := by
  have hText : (k ++ ".$").toList.reverse = '$' :: '.' :: k.toList.reverse := by
    rw [String.toList_append, List.reverse_append]
    rfl
  have hBare : bare k.toList.reverse = k.toList.reverse := by
    refine bare_eq_self fun hPrefix => h ?_
    rwa [← List.reverse_prefix]
  rw [keyOf, hText, bare, hBare, List.reverse_reverse, String.ofList_toList]

theorem index?_toDigits (i : Nat) : index? (Nat.toDigits 10 i) = some i := by
  have hDigits : (Nat.toDigits 10 i).all Char.isDigit = true :=
    List.all_eq_true.mpr fun c hc => Nat.isDigit_of_mem_toDigits (by decide) (by decide) hc
  have hValue : Json.Numeral.digitsValue (Nat.toDigits 10 i) = i :=
    Nat.ofDigitChars_toDigits (by decide) (by decide)
  have hSome : Nat.toDigits 10 i ≠ [] := Nat.toDigits_ne_nil
  unfold index?
  split
  · rename_i digits hSign
    rw [hSign] at hDigits
    simp at hDigits
  · simp [hSome, hDigits, hValue]

theorem toList_text_path (p : String) : (Reference.path p).text.toList = '$' :: '.' :: p.toList :=
  String.toList_append

theorem toList_text_item (i : Nat) :
    (Reference.item i).text.toList = '$' :: '[' :: (Nat.toDigits 10 i ++ [']']) := by
  have hText : (Reference.item i).text = "$[" ++ i.repr ++ "]" := rfl
  rw [hText, String.toList_append, String.toList_append, Nat.toList_repr]
  rfl

/-- The reference that a text was written for. -/
theorem reference?_text {r : Reference} (h : r.Legible) : reference? r.text = some r := by
  cases r with
  | path p =>
    have hNoItem : (Reference.path p).text.toList.dropPrefix? ['$', '['] = none := by
      rw [toList_text_path]
      rfl
    rw [reference?, hNoItem]
    exact congrArg (fun p => some (Reference.path p)) (pathOf_append h)
  | item i =>
    have hFront : (Reference.item i).text.toList.dropPrefix? ['$', '['] =
        some (Nat.toDigits 10 i ++ [']']) := by
      rw [toList_text_item]
      exact List.dropPrefix?_append_of_beq _ (beq_self_eq_true ['$', '['])
    have hBack : (Nat.toDigits 10 i ++ [']']).dropSuffix? [']'] = some (Nat.toDigits 10 i) := by
      rw [List.dropSuffix?_eq_some_iff]
      exact ⟨_, rfl, beq_self_eq_true _⟩
    rw [reference?, hFront, Option.bind_some, hBack]
    exact congrArg (Option.map Reference.item) (index?_toDigits i)

theorem valueAt_text {r : Reference} (h : r.Legible) : valueAt data r.text = r.read data := by
  rw [valueAt, reference?_text h]
  rfl

theorem sourceValue_text {s : ParameterSource} (h : s.Legible) :
    sourceValue data item s.text = s.read data item := by
  cases s with
  | element => rfl
  | place r =>
    -- The second character tells the text of a reference from that of the item.
    have hNe : r.text ≠ "$$.Map.Item.Value" := by
      intro hEq
      have hChars := congrArg (fun s => s.toList[1]?) hEq
      cases r <;> simp [toList_text_path, toList_text_item] at hChars
    exact (if_neg hNe).trans (valueAt_text h)

/-! ### Rules -/

theorem joined?_cons_of_ne {name : String} (h : name ≠ "And") (v : Json)
    (rest : List (String × Json)) : joined? data ((name, v) :: rest) = joined? data rest := by
  cases v <;> simp [joined?, h]

theorem ruleHolds?_isPresent {r : Reference} (h : r.Legible) (present : Bool) :
    ruleHolds? data (.obj [("Variable", .str r.text), ("IsPresent", .bool present)]) =
      some ((r.read data).isSome == present) := by
  have hTest : testHolds? data (.obj [("Variable", .str r.text), ("IsPresent", .bool present)]) =
      (reference? r.text).map fun r => (r.read data).isSome == present := rfl
  rw [reference?_text h] at hTest
  exact hTest

theorem ruleHolds?_isNull {r : Reference} (h : r.Legible) (next : String) :
    ruleHolds? data (Choice.mk (.isNull r) next).toJson = (Rule.isNull r).holds? data := by
  have hTest : ruleHolds? data (Choice.mk (.isNull r) next).toJson =
      (valueAt data r.text).bind fun
        | .null => some true
        | _ => some false := rfl
  rw [hTest, valueAt_text h, Rule.holds?]
  cases r.read data with
  | none => rfl
  | some v => cases v <;> rfl

theorem ruleHolds?_compare {r : Reference} {comparator : String} {val : Json}
    (h : (Rule.compare r comparator val).Legible) (next : String) :
    ruleHolds? data (Choice.mk (.compare r comparator val) next).toJson =
      (Rule.compare r comparator val).holds? data := by
  obtain ⟨hSubject, hOther⟩ := h
  simp only [List.mem_cons, List.not_mem_nil, or_false, not_or] at hOther
  obtain ⟨hVariable, hNext, hAnd, hPresent, hNull⟩ := hOther
  have hJoined : joined? data (Rule.fields (.compare r comparator val) ++ [("Next", .str next)]) =
      none := by
    rw [Rule.fields, List.cons_append, joined?_cons_of_ne (by decide), List.cons_append,
      joined?_cons_of_ne hAnd]
    rfl
  have hFind : (Rule.fields (.compare r comparator val) ++ [("Next", Json.str next)]).find?
      (fun f => f.1 ≠ "Variable" ∧ f.1 ≠ "Next") = some (comparator, val) := by
    simp [Rule.fields, hVariable, hNext]
  have hSubject' : textAt "Variable" (Choice.mk (.compare r comparator val) next).toJson =
      some r.text := rfl
  have hNoPresence : (Choice.mk (.compare r comparator val) next).toJson.fieldOrNull "IsPresent" =
      .null := by
    simp [Choice.toJson, Rule.fields, Json.fieldOrNull, Json.field?, Entries.get?, hPresent]
  have hTest : testHolds? data (Choice.mk (.compare r comparator val) next).toJson =
      (r.read data).bind fun v => comparatorHolds? comparator v val := by
    rw [testHolds?, hSubject', hNoPresence, Option.bind_eq_bind, Option.bind_some,
      valueAt_text hSubject]
    simp only [Json.truth?, Choice.toJson, Json.fields?, Option.bind_eq_bind, Option.bind_some,
      hFind, if_neg hNull]
  rw [Choice.toJson, ruleHolds?, hJoined]
  exact hTest

/-- A test of a choice, read from its document. -/
theorem ruleHolds?_toJson {c : Choice} (h : c.rule.Legible) :
    ruleHolds? data c.toJson = c.rule.holds? data := by
  obtain ⟨rule, next⟩ := c
  cases rule with
  | isNull subject => exact ruleHolds?_isNull h next
  | compare subject comparator val => exact ruleHolds?_compare h next
  | oneItem =>
    have hFirst := @ruleHolds?_isPresent data (.item 0) trivial true
    have hSecond := @ruleHolds?_isPresent data (.item 1) trivial false
    have hAll : ruleHolds? data (Choice.mk .oneItem next).toJson = allHold? data
      [.obj [("Variable", .str (Reference.item 0).text), ("IsPresent", .bool true)],
        .obj [("Variable", .str (Reference.item 1).text), ("IsPresent", .bool false)]] := rfl
    rw [hAll, allHold?, hFirst, allHold?, hSecond, allHold?, Rule.holds?]
    cases ((Reference.item 0).read data).isSome <;>
      cases ((Reference.item 1).read data).isSome <;> rfl

theorem textAt_next_toJson {c : Choice} (h : c.rule.Legible) :
    textAt "Next" c.toJson = some c.next := by
  obtain ⟨rule, next⟩ := c
  cases rule with
  | compare subject comparator val =>
    have hNe : comparator ≠ "Next" := fun hEq => h.2 (by simp [hEq])
    simp [textAt, Choice.toJson, Rule.fields, Json.fieldOrNull, Json.field?, Entries.get?, hNe,
      Json.text?]
  | _ => rfl

theorem chooseNext_toJson {default : String} {choices : List Choice}
    (h : ∀ c ∈ choices, c.rule.Legible) :
    chooseNext data (some default) (choices.map Choice.toJson) =
      chooseRule data default choices := by
  induction choices with
  | nil => rfl
  | cons c rest ih =>
    obtain ⟨hFirst, hRest⟩ := List.forall_mem_cons.mp h
    rw [List.map_cons, chooseNext, chooseRule, ruleHolds?_toJson hFirst]
    cases c.rule.holds? data with
    | none => rfl
    | some b =>
      cases b with
      | true => exact textAt_next_toJson hFirst
      | false => exact ih hRest

/-! ### States -/

/-- An object of values, read from the texts of their sources. -/
theorem collect_toJson {α : Type} {value : String → Option Json} {read : α → Option Json}
    {text : α → String} {sources : List (String × α)}
    (h : ∀ e ∈ sources, LegibleKey e.1 ∧ value (text e.2) = read e.2) :
    collect value (sources.map fun e => (e.1 ++ ".$", .str (text e.2))) =
      (readAll read sources).map fun es => .obj (Entries.ofWrites es) := by
  have hFields : (sources.map fun e => (e.1 ++ ".$", Json.str (text e.2))).mapM
      (fun f => do some (keyOf f.1, ← value (← f.2.text?))) = readAll read sources := by
    induction sources with
    | nil => rfl
    | cons e rest ih =>
      obtain ⟨⟨hKey, hValue⟩, hRest⟩ := List.forall_mem_cons.mp h
      rw [List.map_cons, List.mapM_cons, ih hRest, readAll]
      simp only [Json.text?, Option.bind_eq_bind, Option.bind_some, keyOf_append hKey, hValue]
      cases read e.2 <;> rfl
  rw [collect, hFields, Option.map_eq_bind]
  rfl

section MapFields

variable {items : Reference} {parameters : List (String × ParameterSource)} {iterator : Machine}
  {maxConcurrency : Option Nat} {result : ResultPlace} {next : Option String}

theorem inputOf_toJson (h : ∀ e ∈ parameters, LegibleKey e.1 ∧ e.2.Legible) :
    inputOf data (MachineState.map items parameters iterator maxConcurrency result next).toJson =
      iterationInput data parameters := by
  funext item
  cases parameters with
  | nil =>
    have hNone : (MachineState.map items [] iterator maxConcurrency result next).toJson.field?
        "Parameters" = none := by
      cases maxConcurrency <;> cases result <;> cases next <;> rfl
    rw [inputOf, hNone]
    rfl
  | cons e rest =>
    have hSome : (MachineState.map items (e :: rest) iterator maxConcurrency result
        next).toJson.field? "Parameters" =
      some (.obj ((e :: rest).map fun e => (e.1 ++ ".$", .str e.2.text))) := rfl
    rw [inputOf, hSome]
    exact collect_toJson fun e he => ⟨(h e he).1, sourceValue_text (h e he).2⟩

theorem store_toJson (h : result.Legible) :
    store data (MachineState.map items parameters iterator maxConcurrency result next).toJson =
      result.store data := by
  funext results
  have hField : (MachineState.map items parameters iterator maxConcurrency result
      next).toJson.field? "ResultPath" = Entries.get? "ResultPath" result.fields := by
    cases parameters <;> cases maxConcurrency <;> cases result <;> cases next <;> rfl
  rw [store, hField]
  cases result with
  | output => rfl
  | dropped => rfl
  | place r =>
    cases r with
    | item i => exact h.elim
    | path p =>
      change (Path.set data results (pathOf ("$." ++ p))).toOption = _
      rw [pathOf_append h]
      rfl

end MapFields

/-- Documents of machines come to what the machines come to. -/
theorem mapM_machinesToJson {inner : Json → Json → Option Json}
    {innerMachine : Machine → Json → Option Json} {branches : List Machine}
    (h : ∀ m ∈ branches, ∀ input, inner m.toJson input = innerMachine m input) :
    ((machinesToJson branches).mapM fun b => inner b data) =
      branches.mapM fun b => innerMachine b data := by
  induction branches with
  | nil => rfl
  | cons m rest ih =>
    obtain ⟨hFirst, hRest⟩ := List.forall_mem_cons.mp h
    rw [machinesToJson, List.mapM_cons, List.mapM_cons, hFirst, ih hRest]

variable {service : Service}

/-- A parallel state runs the documents of its branches and then selects from their results. -/
theorem step_parallel_toJson (inner : Json → Json → Option Json) (branches : List Machine)
    (selector : List (String × Reference)) (next : Option String) :
    step service inner data (MachineState.parallel branches selector next).toJson =
      ((machinesToJson branches).mapM fun b => inner b data).bind fun results =>
        (collect (valueAt (.arr results))
          (selector.map fun e => (e.1 ++ ".$", .str e.2.text))).bind fun data =>
            some (next, data) := by
  cases next <;> rfl

/-- What a state does is read from its document, if it is for the machines inside it. -/
theorem step_toJson {s : MachineState} (h : s.Legible) {inner : Json → Json → Option Json}
    {innerMachine : Machine → Json → Option Json}
    (hInner : ∀ m ∈ s.machines, ∀ input, inner m.toJson input = innerMachine m input) :
    step service inner data s.toJson = s.step service innerMachine data := by
  cases s with
  | task resource next =>
    rw [MachineState.step, Option.map_eq_bind]
    cases next <;> rfl
  | choice choices default =>
    have hStep : step service inner data (MachineState.choice choices default).toJson =
        (chooseNext data (some default) (choices.map Choice.toJson)).bind fun next =>
          some (some next, data) := rfl
    rw [hStep, chooseNext_toJson h, MachineState.step, Option.map_eq_bind]
    rfl
  | map items parameters iterator maxConcurrency result next =>
    obtain ⟨hItems, hParameters, hResult⟩ := h
    have hIterator : inner iterator.toJson = innerMachine iterator :=
      funext (hInner iterator (List.mem_singleton_self _))
    have hStep : step service inner data
        (MachineState.map items parameters iterator maxConcurrency result next).toJson =
      (valueAt data items.text).bind fun v => v.items?.bind fun elements =>
        (elements.mapM (inputOf data
          (MachineState.map items parameters iterator maxConcurrency result next).toJson)).bind
        fun inputs => (inputs.mapM (inner iterator.toJson)).bind fun results =>
        (store data (MachineState.map items parameters iterator maxConcurrency result next).toJson
          (.arr results)).bind fun data => some (next, data) := by
      cases parameters <;> cases maxConcurrency <;> cases result <;> cases next <;> rfl
    rw [hStep, valueAt_text hItems, inputOf_toJson hParameters, store_toJson hResult, hIterator]
    rfl
  | parallel branches selector next =>
    have hSelect (results : Json) : collect (valueAt results)
        (selector.map fun e => (e.1 ++ ".$", .str e.2.text)) =
      (readAll (Reference.read results) selector).map fun es => .obj (Entries.ofWrites es) :=
      collect_toJson fun e he => ⟨(h e he).1, valueAt_text (h e he).2⟩
    have hBranches : ((machinesToJson branches).mapM fun b => inner b data) =
        branches.mapM fun b => innerMachine b data := mapM_machinesToJson hInner
    rw [step_parallel_toJson, hBranches]
    simp only [hSelect, MachineState.step, Option.bind_eq_bind, Option.bind_map]
    rfl
  | pass input =>
    have hStep : step service inner data (MachineState.pass input).toJson =
        (valueAt data input.text).bind fun v => some (none, v) := rfl
    rw [hStep, valueAt_text h, MachineState.step, Option.map_eq_bind]
    rfl
  | succeed => rfl

theorem get?_machineStatesToJson (name : String) (states : List (String × MachineState)) :
    Entries.get? name (machineStatesToJson states) =
      (Entries.get? name states).map MachineState.toJson := by
  induction states with
  | nil => rfl
  | cons e rest ih =>
    obtain ⟨k, s⟩ := e
    rw [machineStatesToJson, Entries.get?, Entries.get?, ih]
    split <;> rfl

theorem textAt_startAt (m : Machine) : textAt "StartAt" m.toJson = some m.startAt := by
  cases m
  rfl

/-- A legible machine makes of data what its document makes of them. -/
theorem runFrom_toJson {m : Machine} (h : ∀ n, m.Holds n → ∀ e ∈ n.states, e.2.Legible)
    (fuel : Nat) (name : String) :
    runFrom service fuel m.toJson name data = m.runFrom service fuel name data := by
  induction fuel generalizing m name data with
  | zero => rfl
  | succ fuel ih =>
    have hState : (m.toJson.fieldOrNull "States").fieldOrNull name =
        ((Entries.get? name m.states).map MachineState.toJson).getD .null := by
      rw [← get?_machineStatesToJson, m.toJson_eq]
      rfl
    rw [runFrom, Machine.runFrom, hState]
    cases hGet : Entries.get? name m.states with
    | none => rfl
    | some s =>
      have hMem := Entries.mem_of_get? hGet
      have hStep : step service (fun document input => do
            runFrom service fuel document (← textAt "StartAt" document) input) data s.toJson =
          s.step service (fun n input => n.runFrom service fuel n.startAt input) data := by
        refine step_toJson (h m .refl _ hMem) fun n hn input => ?_
        have hHolds : m.Holds n := .inner .refl hMem hn
        rw [textAt_startAt]
        exact ih (fun k hk => h k (hHolds.trans hk)) _
      refine congrArg₂ Option.bind hStep (funext fun r => ?_)
      obtain ⟨next, data'⟩ := r
      cases next with
      | none => rfl
      | some next => exact ih h next

theorem run_toJson {m : Machine} (h : ∀ n, m.Holds n → ∀ e ∈ n.states, e.2.Legible)
    (fuel : Nat) : run service fuel m.toJson data = m.run service fuel data := by
  rw [run, textAt_startAt]
  exact runFrom_toJson h fuel m.startAt

end Document

end StateMachine

/-! ## Machines of legible workflows -/

open StateMachine

/-- The texts that the documents of the state have from it are read as they are written. -/
def State.Legible : State → Prop
  | .task _ | .repeat _ => True
  | .switch s => ∀ c ∈ s.cases, LegiblePath c.var
  | .map m => LegiblePath m.array ∧ ∀ p ∈ m.paramPaths, LegibleKey p ∧ LegiblePath p
  | .loop l => LegiblePath l.array
  | .parallel p => ∀ b ∈ p.branches, LegibleKey b.key

/-- So it is at every level. -/
def Workflow.Legible (w : Workflow) : Prop := ∀ v, w.Reaches v → ∀ e ∈ v.states, e.2.Legible

variable {resolver : Resolver}

theorem comparator?_eq_some {op : Comparison} {val : Json} {comparator : String}
    (h : comparator? op val = some comparator) :
    comparator ∉ ["Variable", "Next", "And", "IsPresent", "IsNull"] := by
  cases val with
  | int _ | float _ | str _ =>
    cases h
    cases op <;> decide
  | bool _ =>
    rw [comparator?] at h
    split at h
    · cases h
      decide
    · cases h
  | _ => cases h

theorem Case.legible_of_rule? {c : Case} (hVar : LegiblePath c.var) {rule : Rule}
    (h : rule? c = some rule) : rule.Legible := by
  unfold rule? at h
  split at h
  · cases h
    exact hVar
  · obtain ⟨comparator, hComparator, rfl⟩ := Option.map_eq_some_iff.mp h
    exact ⟨hVar, comparator?_eq_some hComparator⟩

theorem legible_of_choices {name : String} {cases' : List Case}
    (hVars : ∀ c ∈ cases', LegiblePath c.var) {cs : List Choice}
    (h : choices name cases' = .ok cs) : ∀ c ∈ cs, c.rule.Legible := by
  induction cases' generalizing cs with
  | nil =>
    cases h
    exact List.forall_mem_nil _
  | cons c rest ih =>
    obtain ⟨rule, hRule, cs', hRest, rfl⟩ := choices_cons_eq_ok_iff.mp h
    obtain ⟨hFirst, hOthers⟩ := List.forall_mem_cons.mp hVars
    exact List.forall_mem_cons.mpr ⟨c.legible_of_rule? hFirst hRule, ih hOthers hRest⟩

theorem MapState.legible_mapState {m : MapState} (h : (State.map m).Legible) (iterator : Machine)
    (result : ResultPlace) (hResult : result.Legible) (next : Option String) :
    (mapState m iterator result next).Legible := by
  obtain ⟨hArray, hPaths⟩ := h
  refine ⟨hArray, ?_, hResult⟩
  by_cases hSome : m.paramPaths = []
  · rw [parameters, hSome]
    exact List.forall_mem_nil _
  · have hOwn : LegibleKey "array_element" := by decide
    rw [parameters_eq hSome]
    exact forall_mem_elementFields ⟨hOwn, trivial⟩ hPaths

theorem legible_selector {branches : List Branch} (h : ∀ b ∈ branches, LegibleKey b.key)
    {acc : Entries Reference} (hAcc : ∀ e ∈ acc, LegibleKey e.1 ∧ e.2.Legible) (i : Nat) :
    ∀ e ∈ selector acc i branches, LegibleKey e.1 ∧ e.2.Legible := by
  induction branches generalizing acc i with
  | nil => exact hAcc
  | cons b rest ih =>
    obtain ⟨hFirst, hRest⟩ := List.forall_mem_cons.mp h
    refine ih hRest (fun ⟨k, r⟩ he => ?_) (i + 1)
    rcases Entries.mem_insert he with hNew | hOld
    · cases hNew
      exact ⟨hFirst, trivial⟩
    · exact hAcc _ hOld

/-- The fragments of a legible state are legible. -/
theorem State.legible_of_fragments {name : String} {s : State} (hLegible : s.Legible)
    {gs : List (String × MachineState)} (h : fragments resolver name s = .ok gs) :
    ∀ f ∈ gs, f.2.Legible := by
  intro f hf
  cases s with
  | task t =>
    obtain ⟨address, -, rfl⟩ := taskFragments_eq_ok_iff.mp h
    rw [List.mem_singleton.mp hf]
    trivial
  | «switch» sw =>
    obtain ⟨cs, hChoices, hDefault⟩ := bind_eq_ok_iff.mp h
    have hRules := legible_of_choices hLegible hChoices
    split at hDefault <;> cases pure_eq_ok_iff.mp hDefault
    · rw [List.mem_singleton.mp hf]
      exact hRules
    · rcases List.mem_cons.mp hf with rfl | hEnd
      · exact hRules
      · rw [List.mem_singleton.mp hEnd]
        trivial
  | map m =>
    obtain ⟨iterator, -, rfl⟩ := fragments_map_eq_ok_iff.mp h
    rw [List.mem_singleton.mp hf]
    exact MapState.legible_mapState hLegible iterator (.place (.path m.array)) hLegible.1 m.next
  | «repeat» r =>
    obtain ⟨task, -, address, -, rfl⟩ := exists_of_forall₂ (forall₂_of_chainFragments h).flip hf
    trivial
  | loop l =>
    obtain ⟨address, -, rfl⟩ := loopFragments_eq_ok_iff.mp h
    rw [List.mem_singleton.mp hf]
    exact ⟨hLegible, List.forall_mem_nil _, trivial⟩
  | parallel p =>
    obtain ⟨machines, -, rfl⟩ := fragments_parallel_eq_ok_iff.mp h
    rw [List.mem_singleton.mp hf]
    exact legible_selector hLegible (List.forall_mem_nil _) 0

/-- All states of the machines inside the machine of a legible workflow are legible. -/
theorem Workflow.legible_of_holds {w : Workflow} (hLegible : w.Legible) {m n : Machine}
    (hMachine : w.machine resolver = .ok m) (h : m.Holds n) : ∀ e ∈ n.states, e.2.Legible := by
  cases Workflow.origin_of_holds hMachine h with
  | @level u hReaches hOwn =>
    obtain ⟨fs, hStates, rfl⟩ := Workflow.machine_eq_ok_iff.mp hOwn
    obtain ⟨groups, hGroups, rfl⟩ := statesFragments_eq_flatten hStates
    intro f hf
    obtain ⟨gs, hGs, hMem⟩ := List.mem_flatten.mp hf
    obtain ⟨e, he, hFragments⟩ := exists_of_forall₂ hGroups.flip hGs
    exact State.legible_of_fragments (hLegible u hReaches e he) hFragments f hMem
  | call hSingle =>
    obtain ⟨address, -, rfl⟩ := singleTask_eq_ok_iff.mp hSingle
    intro e he
    rw [List.mem_singleton.mp he]
    trivial
  | @branch u name p b hReaches hState hBranch hMap =>
    obtain ⟨m, activity, iterator, hRoot, -, rfl, -⟩ := hMap
    have hOwn : (State.map m).Legible :=
      hLegible b.workflow (.enter hReaches hState (.branch hBranch)) (b.workflow.root, .map m)
        (Workflow.mem_states hRoot)
    have hFirst := MapState.legible_mapState hOwn iterator .output trivial
      (some (b.workflow.root ++ "_shape"))
    have hShape : ∀ c ∈ [Choice.mk .oneItem (b.workflow.root ++ "_single")], c.rule.Legible :=
      List.forall_mem_singleton.mpr trivial
    simp only [mapBranch, List.forall_mem_cons]
    exact ⟨hFirst, hShape, trivial, trivial, List.forall_mem_nil _⟩

/-! ## Runs -/

theorem Compiler.exists_machine_of_encode {c : Compiler} (hTarget : c.target = .stepFunctions)
    {w : Workflow} {document : Json} (h : (c.encode w).1 = .ok document) :
    ∃ m, w.machine c.resolver = .ok m ∧ m.toJson = document := by
  rw [Compiler.encode, hTarget] at h
  cases hMachine : w.machine c.resolver with
  | error e => simp [hMachine] at h
  | ok m =>
    rw [hMachine] at h
    exact ⟨m, rfl, Except.ok.inj h⟩

/-- If a run of a valid workflow ends well, its document comes to the same payload once it is
followed for long enough, whatever the calls took and however many were under way. -/
theorem Workflow.exists_document_run {w : Workflow} {c : Compiler} {document : Json}
    {limits : Limits} {caller : Caller} {answers : Answers} {fuel : Nat} {requestId : String}
    {payload : Json} {e : Execution} {o : Outcome} (hValid : w.validate = .ok ())
    (hTarget : c.target = .stepFunctions) (hDocument : (c.encode w).1 = .ok document)
    (hResolver : c.resolver.Distinct) (hCases : w.CasesToldApart) (hLegible : w.Legible)
    (hCaller : caller.AnswersBy answers)
    (hRun : w.run limits caller fuel requestId payload = some e) (hOk : e.result = .ok o) :
    ∃ n, ∀ k, n ≤ k →
      Document.run (c.resolver.serve answers) k document payload = some o.payload := by
  obtain ⟨m, hMachine, rfl⟩ := Compiler.exists_machine_of_encode hTarget hDocument
  obtain ⟨n, hEnds⟩ := Workflow.exists_machine_run hValid hMachine hResolver hCases hCaller hRun hOk
  refine ⟨n, fun k hk => ?_⟩
  rw [Document.run_toJson fun _ hHolds => Workflow.legible_of_holds hLegible hMachine hHolds]
  exact Machine.runFrom_mono hEnds hk

/-! ### Runs that end well, and what their documents come to -/

/-- Goes on to one of two tasks, as the value at a path is greater than a constant or not. -/
def threshold (path : String) (k : Int) : Workflow :=
  ⟨"s", [("s", .switch ⟨[⟨path, .greaterThan, .int k, "big"⟩], some "small"⟩),
    ("big", .task ⟨"big", none⟩), ("small", .task ⟨"small", none⟩)]⟩

/-- The machine of such a workflow. -/
def thresholdMachine (path : String) (k : Int) : Machine :=
  ⟨"s", [("s", .choice [⟨.compare (.path path) "NumericGreaterThan" (.int k), "big"⟩] "small"),
    ("big", .task "/big" none), ("small", .task "/small" none)]⟩

/-- Runs one task beside nothing else and puts its answer under a key. -/
def keyed (key : String) : Workflow :=
  ⟨"p", [("p", .parallel ⟨[⟨some key, ⟨"t", [("t", .task ⟨"big", none⟩)]⟩⟩], none⟩)]⟩

/-- The machine of such a workflow. -/
def keyedMachine (key : String) : Machine :=
  ⟨"p", [("p", .parallel [Machine.single "t" "/big"] [(key, .item 0)] none)]⟩

/-- The addresses of the two tasks. -/
def twoAddresses : Resolver := ⟨none, [("big", "/big"), ("small", "/small")]⟩

/-- Each activity answers with its name. -/
def ownName : Answers := fun activity _ => .ok (.str activity)

theorem twoAddresses_distinct : twoAddresses.Distinct := by
  intro a b address ha hb
  simp only [Resolver.resolve, twoAddresses, Entries.get?] at ha hb
  grind

theorem threshold_only_level {path : String} {k : Int} {v : Workflow}
    (h : (threshold path k).Reaches v) : v = threshold path k := by
  induction h with
  | refl => rfl
  | enter _ hState hEnters ih =>
    subst ih
    simp only [threshold, List.mem_cons, Prod.mk.injEq, List.not_mem_nil, or_false] at hState
    rcases hState with ⟨-, rfl⟩ | ⟨-, rfl⟩ | ⟨-, rfl⟩ <;> cases hEnters

theorem threshold_casesToldApart {path : String} {k : Int} (hk : Binary64.TellsApart k) :
    (threshold path k).CasesToldApart := by
  rintro v hv name s hState sw rfl c hc k' hVal -
  rw [threshold_only_level hv] at hState
  simp only [threshold, List.mem_cons, Prod.mk.injEq, State.switch.injEq, reduceCtorEq, and_false,
    List.not_mem_nil, or_false] at hState
  rw [hState.2, List.mem_singleton] at hc
  rw [hc, Json.int.injEq] at hVal
  rwa [← hVal]

theorem threshold_legible {path : String} {k : Int} (hPath : LegiblePath path) :
    (threshold path k).Legible := by
  intro v hv
  rw [threshold_only_level hv]
  simp [threshold, State.Legible, hPath]

/-- The greater of two small numbers is found. -/
theorem Workflow.exists_document_run_threshold :
    (threshold "x" 5).validate = .ok () ∧
      ((Compiler.fresh .stepFunctions twoAddresses "w").encode (threshold "x" 5)).1 =
        .ok (thresholdMachine "x" 5).toJson ∧
      ∃ n, ∀ k, n ≤ k → Document.run (twoAddresses.serve ownName) k
        (thresholdMachine "x" 5).toJson (.single "x" (.int 7)) = some (.str "big") := by
  have hCases : (threshold "x" 5).CasesToldApart :=
    threshold_casesToldApart (Binary64.tellsApart_of_lt (by decide))
  have hLegible : (threshold "x" 5).Legible := threshold_legible (by decide)
  have hDocument : ((Compiler.fresh .stepFunctions twoAddresses "w").encode (threshold "x" 5)).1 =
      .ok (thresholdMachine "x" 5).toJson := rfl
  have hRun : (threshold "x" 5).run ⟨0, none, none⟩ (ownName.caller fun _ => 0) 5 "r"
      (.single "x" (.int 7)) = some ⟨"r", .ok ⟨.str "big", ["s", "big"]⟩,
        [⟨"big", .single "x" (.int 7), "r"⟩], 0⟩ := rfl
  exact ⟨rfl, hDocument, Workflow.exists_document_run rfl rfl hDocument twoAddresses_distinct
    hCases hLegible (ownName.caller_answersBy _) hRun rfl⟩

/-- The workflow is valid and has a document, and a run of it ends well with a payload that the
document does not come to, however long it is followed. -/
def Workflow.RunsOtherwise (w : Workflow) (c : Compiler) (answers : Answers) (payload : Json) :
    Prop :=
  w.validate = .ok () ∧ c.target = .stepFunctions ∧ c.resolver.Distinct ∧
    ∃ document fuel e o, (c.encode w).1 = .ok document ∧
      w.run ⟨0, none, none⟩ (answers.caller fun _ => 0) fuel "r" payload = some e ∧
      e.result = .ok o ∧
      ∀ n, Document.run (c.resolver.serve answers) n document payload ≠ some o.payload

namespace StateMachine.Document

/-- A task that ends the document. -/
theorem runFrom_task {service : Service} {document payload v : Json} {name resource : String}
    (hState : (document.fieldOrNull "States").fieldOrNull name =
      (MachineState.task resource none).toJson)
    (hCall : service resource payload = some v) (n : Nat) :
    runFrom service (n + 1) document name payload = some v := by
  have hStep (inner : Json → Json → Option Json) :
      step service inner payload (MachineState.task resource none).toJson =
        (service resource payload).bind fun v => some (none, v) := rfl
  rw [runFrom, hState]
  simp only [hStep, hCall, Option.bind_some, Option.bind_eq_bind]

/-- A document of a threshold that goes on to the lesser task ends with its answer. -/
theorem runsOtherwise_threshold {path : String} {k : Int} {payload : Json} {e : Execution}
    {trace : List String} (hChoose : chooseNext payload (some "small")
      [(Choice.mk (.compare (.path path) "NumericGreaterThan" (.int k)) "big").toJson] =
        some "small")
    (hRun : (threshold path k).run ⟨0, none, none⟩ (ownName.caller fun _ => 0) 5 "r" payload =
      some e) (hOk : e.result = .ok ⟨.str "big", trace⟩) :
    (threshold path k).RunsOtherwise (.fresh .stepFunctions twoAddresses "w") ownName payload := by
  have hCall : twoAddresses.serve ownName "/small" payload = some (.str "small") :=
    twoAddresses.serves_serve ownName twoAddresses_distinct "small" _ _ _ rfl rfl
  have hFirst (n : Nat) : run (twoAddresses.serve ownName) (n + 1)
      (thresholdMachine path k).toJson payload = (chooseNext payload (some "small")
        [(Choice.mk (.compare (.path path) "NumericGreaterThan" (.int k)) "big").toJson]).bind
          fun next => runFrom (twoAddresses.serve ownName) n (thresholdMachine path k).toJson next
            payload := by
    rw [run, textAt_startAt, Option.bind_eq_bind, Option.bind_some, runFrom]
    exact Option.bind_assoc ..
  have hNever (n : Nat) : run (twoAddresses.serve ownName) n (thresholdMachine path k).toJson
      payload ≠ some (.str "big") := by
    rcases n with _ | _ | n
    · exact (Option.some_ne_none _).symm
    · rw [hFirst, hChoose]
      exact (Option.some_ne_none _).symm
    · rw [hFirst, hChoose, Option.bind_some, runFrom_task rfl hCall]
      simp
  exact ⟨rfl, rfl, twoAddresses_distinct, (thresholdMachine path k).toJson, 5, e, _, rfl, hRun,
    hOk, hNever⟩

/-- A document has the answer of a branch under the key without what stands behind it. -/
theorem runsOtherwise_keyed (payload : Json) :
    (keyed "k.$").RunsOtherwise (.fresh .stepFunctions twoAddresses "w") ownName payload := by
  have hCall : twoAddresses.serve ownName "/big" payload = some (.str "big") :=
    twoAddresses.serves_serve ownName twoAddresses_distinct "big" _ _ _ rfl rfl
  have hRun : (keyed "k.$").run ⟨0, none, none⟩ (ownName.caller fun _ => 0) 5 "r" payload =
      some ⟨"r", .ok ⟨.obj [("k.$", .str "big")], ["p"]⟩, [⟨"big", payload, "r"⟩], 0⟩ := rfl
  have hStep (inner : Json → Json → Option Json) (v : Json)
      (hInner : inner (Machine.single "t" "/big").toJson payload = some v) :
      step (twoAddresses.serve ownName) inner payload
        (MachineState.parallel [Machine.single "t" "/big"] [("k.$", .item 0)] none).toJson =
      some (none, .obj [("k", v)]) := by
    have hOne : (machinesToJson [Machine.single "t" "/big"]).mapM (inner · payload) = some [v] := by
      simp [machinesToJson, hInner]
    rw [step_parallel_toJson, hOne]
    rfl
  have hDocument (n : Nat) : run (twoAddresses.serve ownName) (n + 2)
      (keyedMachine "k.$").toJson payload = some (.obj [("k", .str "big")]) := by
    have hBranch : runFrom (twoAddresses.serve ownName) (n + 1)
        (Machine.single "t" "/big").toJson "t" payload = some (.str "big") :=
      runFrom_task rfl hCall n
    have hEnd := hStep (fun document input => do
      runFrom (twoAddresses.serve ownName) (n + 1) document (← textAt "StartAt" document) input)
      (.str "big") hBranch
    rw [run, textAt_startAt, Option.bind_eq_bind, Option.bind_some, runFrom]
    exact congrArg (fun r => Option.bind r _) hEnd
  have hNever (n : Nat) : run (twoAddresses.serve ownName) n (keyedMachine "k.$").toJson
      payload ≠ some (.obj [("k.$", .str "big")]) := by
    rcases n with _ | _ | n
    · exact (Option.some_ne_none _).symm
    · exact (Option.some_ne_none _).symm
    · rw [hDocument]
      simp
  exact ⟨rfl, rfl, twoAddresses_distinct, (keyedMachine "k.$").toJson, 5, _, _, rfl, hRun, rfl,
    hNever⟩

end StateMachine.Document

open StateMachine.Document

/-- The document comes to something else where doubles do not tell a constant from other whole
numbers, where a path begins with `$.`, and where a key ends with `.$`. -/
theorem Workflow.runsOtherwise :
    (threshold "x" 9007199254740992).RunsOtherwise (.fresh .stepFunctions twoAddresses "w") ownName
        (.single "x" (.int 9007199254740993)) ∧
      (threshold "$.x" 1).RunsOtherwise (.fresh .stepFunctions twoAddresses "w") ownName
        (.obj [("$", .single "x" (.int 2)), ("x", .int 0)]) ∧
      (keyed "k.$").RunsOtherwise (.fresh .stepFunctions twoAddresses "w") ownName .null := by
  refine ⟨runsOtherwise_threshold (by decide +kernel) rfl rfl,
    runsOtherwise_threshold (by decide +kernel) rfl rfl, runsOtherwise_keyed .null⟩

end Orchestration
