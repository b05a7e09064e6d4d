import Orchestration.Proofs.Definition.RoundTrip

/-!
# Texts and values as definitions

A definition is read from a text or from the value of a text. The text nests only so deep, its
faults are found on the way, and a name that an object repeats is still there twice. If the text has
a value and no object in it repeats a name, none of this makes a difference.

* `Json.Draft.eq_ofValue`: then what stands in the text is the draft of its value.
* `stateOfDraft_unbounded`, `workflowOfDraft_agree`: states and workflows are read from the draft of
  a value alike with and without a bound that the value keeps to.
* `Workflow.parseJson_agrees`: the text and its value are accepted or refused alike.
-/

namespace Orchestration

/-! ## Drafts without repeated names -/

namespace Json.Draft

mutual

/-- No object of the draft repeats a name. -/
def hasDistinctNames : Draft → Bool
  | .arr items _ => itemsHaveDistinctNames items
  | .obj fields _ => decide (Entries.keys fields).Nodup && fieldsHaveDistinctNames fields
  | _ => true

def itemsHaveDistinctNames : List Draft → Bool
  | [] => true
  | d :: rest => d.hasDistinctNames && itemsHaveDistinctNames rest

def fieldsHaveDistinctNames : List (String × Draft) → Bool
  | [] => true
  | (_, d) :: rest => d.hasDistinctNames && fieldsHaveDistinctNames rest

end

theorem keys_ofFields (fields : List (String × Json)) :
    Entries.keys (ofFields fields) = Entries.keys fields := by
  induction fields with
  | nil => rfl
  | cons f rest ih =>
    obtain ⟨k, v⟩ := f
    rw [ofFields, Entries.keys_cons, Entries.keys_cons, ih]

mutual

/-- A draft that has a value and repeats no name is the draft of its value,
which keeps to the levels. -/
theorem eq_ofValue {levels : Nat} {d : Draft} {v : Json} (hValue : d.value? levels = some v)
    (hNames : d.hasDistinctNames = true) : d = ofValue v ∧ v.nesting ≤ levels := by
  cases d with
  | flawed => cases hValue
  | broken => cases hValue
  | arr items closed =>
    cases levels with
    | zero => cases hValue
    | succ levels =>
      obtain ⟨vs, hItems, hClosed⟩ := Option.bind_eq_some_iff.mp hValue
      obtain ⟨rfl, hLevels⟩ := eq_ofItems hItems hNames
      cases closed <;> cases hClosed
      exact ⟨rfl, Nat.succ_le_succ hLevels⟩
  | obj fields closed =>
    cases levels with
    | zero => cases hValue
    | succ levels =>
      obtain ⟨hDistinct, hInside⟩ := Bool.and_eq_true_iff.mp hNames
      obtain ⟨vs, hFields, hClosed⟩ := Option.bind_eq_some_iff.mp hValue
      obtain ⟨rfl, hLevels⟩ := eq_ofFields hFields hInside
      rw [decide_eq_true_iff, keys_ofFields] at hDistinct
      rw [Entries.ofWrites_of_nodup hDistinct] at hClosed
      cases closed <;> cases hClosed
      exact ⟨rfl, Nat.succ_le_succ hLevels⟩
  | _ =>
    cases hValue
    exact ⟨rfl, Nat.zero_le _⟩

theorem eq_ofItems {levels : Nat} {items : List Draft} {vs : List Json}
    (hValues : itemValues? levels items = some vs) (hNames : itemsHaveDistinctNames items = true) :
    items = ofItems vs ∧ nestingItems vs ≤ levels := by
  cases items with
  | nil =>
    cases hValues
    exact ⟨rfl, Nat.zero_le _⟩
  | cons d rest =>
    obtain ⟨hHead, hRest⟩ := Bool.and_eq_true_iff.mp hNames
    obtain ⟨v, hValue, hTail⟩ := Option.bind_eq_some_iff.mp hValues
    obtain ⟨vs', hMore, hCons⟩ := Option.bind_eq_some_iff.mp hTail
    obtain ⟨rfl, hLevels⟩ := eq_ofValue hValue hHead
    obtain ⟨rfl, hLevels'⟩ := eq_ofItems hMore hRest
    cases hCons
    exact ⟨rfl, Nat.max_le.mpr ⟨hLevels, hLevels'⟩⟩

theorem eq_ofFields {levels : Nat} {fields : List (String × Draft)} {vs : List (String × Json)}
    (hValues : fieldValues? levels fields = some vs)
    (hNames : fieldsHaveDistinctNames fields = true) :
    fields = ofFields vs ∧ nestingFields vs ≤ levels := by
  cases fields with
  | nil =>
    cases hValues
    exact ⟨rfl, Nat.zero_le _⟩
  | cons f rest =>
    obtain ⟨k, d⟩ := f
    obtain ⟨hHead, hRest⟩ := Bool.and_eq_true_iff.mp hNames
    obtain ⟨v, hValue, hTail⟩ := Option.bind_eq_some_iff.mp hValues
    obtain ⟨vs', hMore, hCons⟩ := Option.bind_eq_some_iff.mp hTail
    obtain ⟨rfl, hLevels⟩ := eq_ofValue hValue hHead
    obtain ⟨rfl, hLevels'⟩ := eq_ofFields hMore hRest
    cases hCons
    exact ⟨rfl, Nat.max_le.mpr ⟨hLevels, hLevels'⟩⟩

end

end Json.Draft

namespace Definition

open Json (Draft)

/-! ## Reading with and without a bound -/

section Bound

variable {n : Nat}

theorem stateFields_unbounded {fields : List (String × Json)} (h : Json.nestingFields fields ≤ n)
    (k : Option Kind) (entries : List (Term × Term)) :
    stateFields (some n) k entries (Draft.ofFields fields) =
      stateFields none k entries (Draft.ofFields fields) := by
  induction fields generalizing k entries with
  | nil => rfl
  | cons f rest ih =>
    obtain ⟨name, v⟩ := f
    obtain ⟨hHead, hRest⟩ := Nat.max_le.mp h
    have hTerm : term (some n) (Draft.ofValue v) = .ok (termOf v) :=
      term_ofValue (by rintro _ ⟨⟩; exact hHead)
    have hTermNone : term none (Draft.ofValue v) = .ok (termOf v) := term_ofValue nofun
    simp only [Draft.ofFields, stateFields, hTerm, hTermNone, ih hRest]

/-- Inside a state a value has one level less. -/
theorem stateOfDraft_unbounded {v : Json} (h : v.nesting ≤ n + 1) :
    stateOfDraft (some n) (Draft.ofValue v) = stateOfDraft none (Draft.ofValue v) := by
  cases v with
  | obj fields =>
    have hInner : Json.nestingFields fields ≤ n := Nat.le_of_succ_le_succ h
    simp only [Draft.ofValue, stateOfDraft, stateFields_unbounded hInner]
  | arr items =>
    cases items with
    | nil => rfl
    | cons v rest =>
      have hInner : Json.nestingItems rest ≤ n := (Nat.max_le.mp (Nat.le_of_succ_le_succ h)).2
      have hItems : termItems (some n) (Draft.ofItems rest) = .ok (termsOf rest) :=
        termItems_ofItems (by rintro _ ⟨⟩; exact hInner)
      have hItemsNone : termItems none (Draft.ofItems rest) = .ok (termsOf rest) :=
        termItems_ofItems nofun
      simp only [Draft.ofValue, Draft.ofItems, stateOfDraft, hItems, hItemsNone]
  | _ => rfl

theorem statesOfFields_unbounded {fields : List (String × Json)}
    (h : Json.nestingFields fields ≤ n + 1) (acc : Entries State) :
    statesOfFields (some n) acc (Draft.ofFields fields) =
      statesOfFields none acc (Draft.ofFields fields) := by
  induction fields generalizing acc with
  | nil => rfl
  | cons f rest ih =>
    obtain ⟨name, v⟩ := f
    obtain ⟨hHead, hRest⟩ := Nat.max_le.mp h
    simp only [Draft.ofFields, statesOfFields, stateOfDraft_unbounded hHead, ih hRest]

theorem statesOfDraft_unbounded {v : Json} (h : v.nesting ≤ n + 2) :
    statesOfDraft (some n) (Draft.ofValue v) = statesOfDraft none (Draft.ofValue v) := by
  cases v with
  | obj fields =>
    have hInner : Json.nestingFields fields ≤ n + 1 := Nat.le_of_succ_le_succ h
    simp only [Draft.ofValue, statesOfDraft, statesOfFields_unbounded hInner]
  | _ => rfl

theorem fieldsOfDraft_unbounded {fields : List (String × Json)}
    (h : Json.nestingFields fields ≤ n + 2) (acc : WorkflowFields) :
    fieldsOfDraft (some n) acc (Draft.ofFields fields) =
      fieldsOfDraft none acc (Draft.ofFields fields) := by
  induction fields generalizing acc with
  | nil => rfl
  | cons f rest ih =>
    obtain ⟨name, v⟩ := f
    obtain ⟨hHead, hRest⟩ := Nat.max_le.mp h
    simp only [Draft.ofFields, fieldsOfDraft, statesOfDraft_unbounded hHead, ih hRest]

theorem statesItem_unbounded {items : List Json} (h : Json.nestingItems items ≤ n + 2)
    (closed : Bool) (i : Nat) :
    itemOfDraft (Draft.ofItems items) closed i (statesOfDraft (some n)) =
      itemOfDraft (Draft.ofItems items) closed i (statesOfDraft none) := by
  induction items generalizing i with
  | nil => rfl
  | cons v rest ih =>
    obtain ⟨hHead, hRest⟩ := Nat.max_le.mp h
    cases i with
    | zero =>
      simp only [itemOfDraft, Draft.ofItems, List.getElem?_cons_zero, statesOfDraft_unbounded hHead]
    | succ i => exact ih hRest i

end Bound

/-- A list with too many items is refused for different reasons, but by both. -/
theorem finishListed_agree (items : List Draft) (fields : WorkflowFields) (w : Workflow) :
    (do
      let u ← JsonFault.lift (fields.finish .listed)
      if items.length ≤ workflowRecord.fields.length ∧ true then pure u
      else .error (tooManyItems .text items.length)) = Except.ok w ↔
    (do
      let u ← JsonFault.lift (fields.finish .listed)
      if items.length ≤ workflowRecord.fields.length ∧ true then pure u
      else .error (tooManyItems .value items.length)) = Except.ok w := by
  simp only [bind_eq_ok_iff]
  refine exists_congr fun u => and_congr_right fun _ => ?_
  split
  · exact Iff.rfl
  · exact ⟨nofun, nofun⟩

/-- A workflow is read from the draft of a value as if it stood in a text, if a
text may nest that deep. -/
theorem workflowOfDraft_agree {v : Json} (h : v.nesting ≤ Draft.maxLevels) (w : Workflow) :
    workflowOfDraft .text (Draft.ofValue v) = .ok w ↔
      workflowOfDraft .value (Draft.ofValue v) = .ok w := by
  cases v with
  | obj fields =>
    have hInner : Json.nestingFields fields ≤ Draft.maxLevels - 3 + 2 := Nat.le_of_succ_le_succ h
    simp only [Draft.ofValue, workflowOfDraft, stateLevels, fieldsOfDraft_unbounded hInner]
  | arr items =>
    have hInner : Json.nestingItems items ≤ Draft.maxLevels - 3 + 2 := Nat.le_of_succ_le_succ h
    rw [Draft.ofValue, workflowOfDraft, workflowOfDraft, stateLevels, stateLevels,
      statesItem_unbounded hInner, bind_eq_ok_iff, bind_eq_ok_iff]
    refine exists_congr fun root => and_congr_right fun _ => ?_
    cases root with
    | none => exact finishListed_agree (Draft.ofItems items) ⟨none, none⟩ w
    | some root =>
      dsimp only [Option.isSome]
      rw [if_pos rfl, if_pos rfl, bind_eq_ok_iff, bind_eq_ok_iff]
      exact exists_congr fun states => and_congr_right fun _ =>
        finishListed_agree _ ⟨some root, states⟩ w
  | _ => exact Iff.rfl

/-- The workflow that stands in a text is that of its value. -/
theorem workflowOfText_eq_ok_iff {text : String} {v : Json} (hValue : Json.ofText? text = some v)
    (hNames : (Draft.read text).1.hasDistinctNames = true) (w : Workflow) :
    workflowOfText text = .ok w ↔ workflowOfJson v = .ok w := by
  rw [Json.ofText?] at hValue
  rw [workflowOfText, workflowOfJson]
  generalize Draft.read text = read at hValue hNames ⊢
  obtain ⟨d, rest⟩ := read
  dsimp only at hValue hNames ⊢
  split at hValue
  · rename_i hEnd
    obtain ⟨rfl, hLevels⟩ := Draft.eq_ofValue hValue hNames
    rw [← workflowOfDraft_agree hLevels w, bind_eq_ok_iff]
    simp only [hEnd, if_true, pure_eq_ok_iff, exists_eq_right]
  · cases hValue

end Definition

/-! ## Texts and values -/

namespace Workflow

/-- What validation says of a workflow is said if and only if the workflow could be read. -/
theorem checked_ofRead_iff {x : Except Definition.JsonFault Workflow}
    {r : Except DefinitionError Workflow} (h : ∀ fault, r ≠ .error (.json fault)) :
    (ofRead x >>= checked) = r ↔ ∃ w, x = .ok w ∧ w.checked = r := by
  cases x with
  | error fault =>
    simp only [reduceCtorEq, false_and, exists_false, iff_false]
    exact fun hFault => h fault hFault.symm
  | ok w => simp [ofRead, bind, Except.bind]

/-- A text that has a value and repeats no name in an object is read as its value is: one is
accepted if the other is, and then they are the same workflow, with the states in the same order;
and what validation finds is the same. -/
theorem parseJson_agrees {text : String} {v : Json} (hValue : Json.ofText? text = some v)
    (hNames : (Json.Draft.read text).1.hasDistinctNames = true) :
    (∀ w, parseJson text = .ok w ↔ ofJson v = .ok w) ∧
      ∀ e, parseJson text = .error (.invalid e) ↔ ofJson v = .error (.invalid e) := by
  have hAgree : ∀ r : Except DefinitionError Workflow, (∀ fault, r ≠ .error (.json fault)) →
      (parseJson text = r ↔ ofJson v = r) := by
    intro r hRead
    have hText : parseJson text = r ↔ ∃ w, Definition.workflowOfText text = .ok w ∧ w.checked = r :=
      checked_ofRead_iff hRead
    have hJson : ofJson v = r ↔ ∃ w, Definition.workflowOfJson v = .ok w ∧ w.checked = r :=
      checked_ofRead_iff hRead
    rw [hText, hJson]
    exact exists_congr fun w =>
      and_congr_left' (Definition.workflowOfText_eq_ok_iff hValue hNames w)
  exact ⟨fun w => hAgree _ nofun, fun e => hAgree _ nofun⟩

/-- A field that is not known, a `next` that is null, and the kind of the state
after its other fields. -/
def outOfOrder : Json :=
  .obj [("x", .arr [.int 7]), ("states", .obj [("s", .obj [("next", .null), ("func_name", .str "f"),
    ("type", .str "task")])]), ("root", .str "s")]

/-- A workflow and a task as lists; the task goes on to a state that is not there. -/
def listedStray : Json := .arr [.str "s", .obj [("s", .arr [.str "task", .str "f", .str "t"])]]

/-- The text of the first is read as its value is, that of the second refused. -/
theorem parseJson_agrees_outOfOrder :
    Json.ofText? outOfOrder.pretty = some outOfOrder ∧
      parseJson outOfOrder.pretty = .ok ⟨"s", [("s", .task ⟨"f", none⟩)]⟩ ∧
      Json.ofText? listedStray.pretty = some listedStray ∧
      parseJson listedStray.pretty = .error (.invalid (.unknownTarget "s" "t")) := by
  have hRead : Json.Draft.read outOfOrder.pretty = (.ofValue outOfOrder, []) :=
    Json.Draft.read_pretty (by decide) (by decide)
  have hValue : Json.ofText? outOfOrder.pretty = some outOfOrder := by
    rw [Json.ofText?, hRead]
    rfl
  have hReadListed : Json.Draft.read listedStray.pretty = (.ofValue listedStray, []) :=
    Json.Draft.read_pretty (by decide) (by decide)
  have hValueListed : Json.ofText? listedStray.pretty = some listedStray := by
    rw [Json.ofText?, hReadListed]
    rfl
  refine ⟨hValue, ?_, hValueListed, ?_⟩
  · exact ((parseJson_agrees hValue (by rw [hRead]; rfl)).1 _).mpr rfl
  · exact ((parseJson_agrees hValueListed (by rw [hReadListed]; rfl)).2 _).mpr rfl

end Workflow

end Orchestration
