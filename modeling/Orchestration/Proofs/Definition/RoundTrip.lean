import Orchestration.Definition.Error
import Orchestration.Proofs.Basic
import Orchestration.Proofs.Json.Reading
import Orchestration.Workflow.Encoding

/-!
# Definitions are read back

A workflow is written as a value, the value as a text, the text is read as a draft, and the draft
as a workflow again. Inside a state the draft is first taken for a term, and this says just what
the value says (`termOf`).

* `Definition.state_termOf` reads states back from their terms, by recursion on the workflows in
  them.
* `Definition.workflowOfDraft_ofValue` reads workflows back from the drafts of their values.
* `Workflow.parseJson_toText` reads valid workflows back from their texts.
-/

namespace Orchestration

/-! ## Levels of values -/

namespace Json

mutual

/-- How many arrays and objects enclose one another in a value. -/
def nesting : Json → Nat
  | .null | .bool _ | .int _ | .float _ | .str _ => 0
  | .arr items => nestingItems items + 1
  | .obj fields => nestingFields fields + 1

/-- The greatest `nesting` of an item. -/
def nestingItems : List Json → Nat
  | [] => 0
  | v :: rest => max v.nesting (nestingItems rest)

/-- The greatest `nesting` of the value of a field. -/
def nestingFields : List (String × Json) → Nat
  | [] => 0
  | (_, v) :: rest => max v.nesting (nestingFields rest)

end

end Json

namespace Definition

open Json (Draft)

/-! ## Terms of values -/

mutual

/-- The term that says what a value is. -/
def termOf : Json → Term
  | .null => .null
  | .bool b => .bool b
  | .int n => .int n
  | .float x => .float x
  | .str s => .str s
  | .arr items => .seq (termsOf items)
  | .obj fields => .map (entriesOf fields)

def termsOf : List Json → List Term
  | [] => []
  | v :: rest => termOf v :: termsOf rest

def entriesOf : List (String × Json) → List (Term × Term)
  | [] => []
  | (k, v) :: rest => (.str k, termOf v) :: entriesOf rest

end

/-- Levels that suffice for an array or an object leave enough for what is inside. -/
theorem exists_innerLevels {levels : Option Nat} {k : Nat} (h : ∀ n ∈ levels, k + 1 ≤ n) :
    ∃ inner, innerLevels levels = some inner ∧ ∀ n ∈ inner, k ≤ n := by
  match levels with
  | none => exact ⟨none, rfl, nofun⟩
  | some 0 => exact absurd (h 0 rfl) (Nat.not_succ_le_zero k)
  | some (n + 1) =>
    refine ⟨some n, rfl, ?_⟩
    rintro _ ⟨⟩
    exact Nat.le_of_succ_le_succ (h _ rfl)

mutual

/-- The draft of a value stands for the term of the value, if the levels suffice. -/
theorem term_ofValue {levels : Option Nat} {v : Json} (h : ∀ n ∈ levels, v.nesting ≤ n) :
    term levels (Draft.ofValue v) = .ok (termOf v) := by
  cases v with
  | arr items =>
    obtain ⟨inner, hInner, hLevels⟩ := exists_innerLevels h
    simp only [Draft.ofValue, term, hInner, termItems_ofItems hLevels, termOf]
    rfl
  | obj fields =>
    obtain ⟨inner, hInner, hLevels⟩ := exists_innerLevels h
    simp only [Draft.ofValue, term, hInner, termFields_ofFields hLevels, termOf]
    rfl
  | _ => rfl

theorem termItems_ofItems {levels : Option Nat} {items : List Json}
    (h : ∀ n ∈ levels, Json.nestingItems items ≤ n) :
    termItems levels (Draft.ofItems items) = .ok (termsOf items) := by
  cases items with
  | nil => rfl
  | cons v rest =>
    have hHead : term levels (Draft.ofValue v) = .ok (termOf v) :=
      term_ofValue fun n hn => (Nat.le_max_left _ _).trans (h n hn)
    have hRest : termItems levels (Draft.ofItems rest) = .ok (termsOf rest) :=
      termItems_ofItems fun n hn => (Nat.le_max_right _ _).trans (h n hn)
    rw [Draft.ofItems, termItems, hHead, termsOf, hRest]
    rfl

theorem termFields_ofFields {levels : Option Nat} {fields : List (String × Json)}
    (h : ∀ n ∈ levels, Json.nestingFields fields ≤ n) :
    termFields levels (Draft.ofFields fields) = .ok (entriesOf fields) := by
  cases fields with
  | nil => rfl
  | cons f rest =>
    obtain ⟨k, v⟩ := f
    have hHead : term levels (Draft.ofValue v) = .ok (termOf v) :=
      term_ofValue fun n hn => (Nat.le_max_left _ _).trans (h n hn)
    have hRest : termFields levels (Draft.ofFields rest) = .ok (entriesOf rest) :=
      termFields_ofFields fun n hn => (Nat.le_max_right _ _).trans (h n hn)
    rw [Draft.ofFields, termFields, hHead, entriesOf, hRest]
    rfl

end

mutual

/-- A value whose names are distinct is the value of its term. -/
theorem json_termOf {v : Json} (h : v.WellFormed) : (termOf v).json = .ok v := by
  cases v with
  | arr items =>
    have hItems : Term.jsonItems (termsOf items) = .ok items := jsonItems_termsOf h
    rw [termOf, Term.json, hItems]
    rfl
  | obj fields =>
    have hFields : Term.jsonFields [] (entriesOf fields) = .ok fields :=
      jsonFields_entriesOf h.1 h.2
    rw [termOf, Term.json, hFields]
    rfl
  | _ => rfl

theorem jsonItems_termsOf {items : List Json} (h : Json.WellFormedItems items) :
    Term.jsonItems (termsOf items) = .ok items := by
  cases items with
  | nil => rfl
  | cons v rest =>
    rw [termsOf, Term.jsonItems, json_termOf h.1, jsonItems_termsOf h.2]
    rfl

theorem jsonFields_entriesOf {read fields : List (String × Json)}
    (hNodup : (Entries.keys (read ++ fields)).Nodup) (h : Json.WellFormedFields fields) :
    Term.jsonFields read (entriesOf fields) = .ok (read ++ fields) := by
  cases fields with
  | nil => rw [entriesOf, Term.jsonFields, List.append_nil]
  | cons f rest =>
    obtain ⟨k, v⟩ := f
    have hRest : Term.jsonFields (read ++ [(k, v)]) (entriesOf rest) =
        .ok (read ++ [(k, v)] ++ rest) :=
      jsonFields_entriesOf (by rwa [List.append_assoc]) h.2
    rw [List.append_assoc, List.singleton_append] at hRest
    rw [entriesOf, Term.jsonFields, json_termOf h.1]
    show Term.jsonFields (Entries.insert k v read) (entriesOf rest) = _
    rw [Entries.insert_of_nodup hNodup, hRest]

end

/-! ## States -/

/-- The steps before a field whose value is read are the same for every value. -/
theorem case_termOf {c : Case} (h : c.val.WellFormed) : case (termOf c.toJson) = .ok c := by
  obtain ⟨var, op, val, next⟩ := c
  have hPut : CaseFields.put ⟨some var, some op, none, none⟩ "val" (termOf val) =
      .ok ⟨some var, some op, some val, none⟩ := by
    show (Record.once "val" none (termOf val).json).bind _ = _
    rw [json_termOf h]
    rfl
  have hRead : case (termOf (Case.toJson ⟨var, op, val, next⟩)) =
      (CaseFields.put ⟨some var, some op, none, none⟩ "val" (termOf val) >>= fun acc =>
        caseRecord.readEntries CaseFields.put acc [(.str "next", .str next)]) >>= fun acc =>
          acc.finish .named := by
    cases op <;> rfl
  rw [hRead, hPut]
  rfl

theorem cases_termsOf {cs : List Case} (h : Json.WellFormedItems (cs.map Case.toJson)) :
    cases (.seq (termsOf (cs.map Case.toJson))) = .ok cs := by
  show (termsOf (cs.map Case.toJson)).mapM case = .ok cs
  induction cs with
  | nil => rfl
  | cons c rest ih =>
    rw [List.map_cons, termsOf, List.mapM_cons, case_termOf h.1.2.2.2.1, ih h.2]
    rfl

theorem state_switch {s : SwitchState} (h : (State.switch s).toJson.WellFormed) :
    state (termOf (State.switch s).toJson) = .ok (.switch s) := by
  obtain ⟨cs, default⟩ := s
  have hPut : SwitchFields.put ⟨none, none⟩ "cases" (.seq (termsOf (cs.map Case.toJson))) =
      .ok ⟨some cs, none⟩ := by
    show (Record.once "cases" none (cases (.seq (termsOf (cs.map Case.toJson))))).bind _ = _
    rw [cases_termsOf h.2.2.1]
    rfl
  have hRead : state (termOf (State.switch ⟨cs, default⟩).toJson) =
      (SwitchFields.put ⟨none, none⟩ "cases" (.seq (termsOf (cs.map Case.toJson))) >>= fun acc =>
        switchRecord.readEntries SwitchFields.put acc
          (entriesOf (optionalField "default" (default.map .str)))) >>= fun acc =>
            .switch <$> acc.finish .named := by
    cases default <;> rfl
  rw [hRead, hPut]
  cases default <;> rfl

theorem keys_statesToJson (states : List (String × State)) :
    Entries.keys (statesToJson states) = Entries.keys states := by
  induction states with
  | nil => rfl
  | cons e rest ih =>
    obtain ⟨name, s⟩ := e
    rw [statesToJson, Entries.keys_cons, Entries.keys_cons, ih]

/-- The states of a workflow whose value is well-formed have names of their own. -/
theorem states_wellFormed {w : Workflow} (h : w.toJson.WellFormed) :
    (Entries.keys w.states).Nodup ∧ Json.WellFormedFields (statesToJson w.states) := by
  obtain ⟨root, states⟩ := w
  obtain ⟨-, -, ⟨hKeys, hStates⟩, -⟩ := h
  rw [keys_statesToJson] at hKeys
  exact ⟨hKeys, hStates⟩

theorem branch_states_wellFormed {b : Branch} (h : b.toJson.WellFormed) :
    (Entries.keys b.workflow.states).Nodup ∧
      Json.WellFormedFields (statesToJson b.workflow.states) := by
  obtain ⟨name, root, states⟩ := b
  apply states_wellFormed
  cases name with
  | none => exact h
  | some name => exact ⟨(List.nodup_cons.mp h.1).2, h.2.2⟩

theorem state_map_workflow {w : Workflow} (array : String) (commonParams : Option String)
    (maxConcurrency : Option Nat) (next : Option String)
    (h : body (termOf w.toJson) = .ok (some w)) :
    state (termOf (State.map ⟨.workflow w, array, commonParams, maxConcurrency, next⟩).toJson) =
      .ok (.map ⟨.workflow w, array, commonParams, maxConcurrency, next⟩) := by
  have hPut : (MapFields.none.put "body" (termOf w.toJson) fun _ => body (termOf w.toJson)) =
      .ok { MapFields.none with body := some (some w) } := by
    show (Record.once "body" none (body (termOf w.toJson))).bind _ = _
    rw [h]
    rfl
  have hRead :
      state (termOf (State.map ⟨.workflow w, array, commonParams, maxConcurrency, next⟩).toJson) =
      ((MapFields.none.put "body" (termOf w.toJson) fun _ => body (termOf w.toJson)) >>= fun acc =>
        mapEntries acc (entriesOf
          (MapState.fields ⟨.workflow w, array, commonParams, maxConcurrency, next⟩).tail)) >>=
            mapOfEntries := by
    cases commonParams <;> cases maxConcurrency <;> cases next <;> rfl
  rw [hRead, hPut]
  cases commonParams <;> cases maxConcurrency <;> cases next <;> rfl

theorem state_map_activity (name array : String) (commonParams : Option String)
    (maxConcurrency : Option Nat) (next : Option String) :
    state (termOf (State.map ⟨.activity name, array, commonParams, maxConcurrency, next⟩).toJson) =
      .ok (.map ⟨.activity name, array, commonParams, maxConcurrency, next⟩) := by
  cases commonParams <;> cases maxConcurrency <;> cases next <;> rfl

theorem state_parallel {branches : List Branch} (next : Option String)
    (h : branchList (termsOf (branchesToJson branches)) = .ok branches) :
    state (termOf (State.parallel ⟨branches, next⟩).toJson) = .ok (.parallel ⟨branches, next⟩) := by
  have hPut :
      (ParallelFields.put ⟨none, none⟩ "funcs" (.seq (termsOf (branchesToJson branches))) fun _ =>
          Definition.branches (.seq (termsOf (branchesToJson branches)))) =
        .ok ⟨some branches, none⟩ := by
    show (Record.once "funcs" none (branchList (termsOf (branchesToJson branches)))).bind _ = _
    rw [h]
    rfl
  have hRead : state (termOf (State.parallel ⟨branches, next⟩).toJson) =
      ((ParallelFields.put ⟨none, none⟩ "funcs" (.seq (termsOf (branchesToJson branches))) fun _ =>
        Definition.branches (.seq (termsOf (branchesToJson branches)))) >>= fun acc =>
          parallelEntries acc (entriesOf (nextField next))) >>= fun acc =>
            .parallel <$> acc.finish .named := by
    cases next <;> rfl
  rw [hRead, hPut]
  cases next <;> rfl

theorem put_states {root : String} {states : List (String × State)}
    (h : stateMap [] (entriesOf (statesToJson states)) = .ok states) :
    (WorkflowFields.put ⟨some root, none⟩ "states" (.map (entriesOf (statesToJson states))) fun _ =>
      Definition.states (.map (entriesOf (statesToJson states)))) =
          .ok ⟨some root, some states⟩ := by
  show (Record.once "states" none (stateMap [] (entriesOf (statesToJson states)))).bind _ = _
  rw [h]
  rfl

theorem body_termOf {w : Workflow}
    (h : stateMap [] (entriesOf (statesToJson w.states)) = .ok w.states) :
    body (termOf w.toJson) = .ok (some w) := by
  obtain ⟨root, states⟩ := w
  have hRead : body (termOf (Workflow.toJson ⟨root, states⟩)) =
      ((WorkflowFields.put ⟨some root, none⟩ "states"
        (.map (entriesOf (statesToJson states))) fun _ =>
        Definition.states (.map (entriesOf (statesToJson states)))) >>= fun acc =>
          workflowEntries acc []) >>= fun acc => some <$> acc.finish .named := rfl
  rw [hRead, put_states h]
  rfl

theorem branch_termOf {b : Branch}
    (h : stateMap [] (entriesOf (statesToJson b.workflow.states)) = .ok b.workflow.states) :
    branch (termOf b.toJson) = .ok b := by
  obtain ⟨name, root, states⟩ := b
  have hRead : branch (termOf (Branch.toJson ⟨name, ⟨root, states⟩⟩)) =
      ((WorkflowFields.put ⟨some root, none⟩ "states"
        (.map (entriesOf (statesToJson states))) fun _ =>
        Definition.states (.map (entriesOf (statesToJson states)))) >>= fun acc =>
          branchEntries acc []) >>= fun acc => acc.finish .named >>= fun w => .ok ⟨name, w⟩ := by
    cases name <;> rfl
  rw [hRead, put_states h]
  rfl

mutual

/-- The term of a state's value is read as the state. -/
theorem state_termOf {s : State} (h : s.toJson.WellFormed) : state (termOf s.toJson) = .ok s := by
  cases s with
  | task t =>
    obtain ⟨activity, next⟩ := t
    cases next <;> rfl
  | «switch» s => exact state_switch h
  | map m =>
    obtain ⟨body, array, commonParams, maxConcurrency, next⟩ := m
    cases body with
    | activity name => exact state_map_activity name array commonParams maxConcurrency next
    | workflow w =>
      obtain ⟨root, states⟩ := w
      obtain ⟨hKeys, hStates⟩ := states_wellFormed h.2.2.1
      have hRead : stateMap [] (entriesOf (statesToJson states)) = .ok ([] ++ states) :=
        stateMap_entriesOf hKeys hStates
      exact state_map_workflow array commonParams maxConcurrency next (body_termOf hRead)
  | «repeat» r =>
    obtain ⟨activity, count, next⟩ := r
    cases next <;> rfl
  | loop l =>
    obtain ⟨activity, array, next⟩ := l
    cases next <;> rfl
  | parallel p =>
    obtain ⟨branches, next⟩ := p
    exact state_parallel next (branchList_termsOf h.2.2.1)

theorem stateMap_entriesOf {read states : List (String × State)}
    (hNodup : (Entries.keys (read ++ states)).Nodup)
    (h : Json.WellFormedFields (statesToJson states)) :
    stateMap read (entriesOf (statesToJson states)) = .ok (read ++ states) := by
  cases states with
  | nil => rw [statesToJson, entriesOf, stateMap, List.append_nil]
  | cons e rest =>
    obtain ⟨name, s⟩ := e
    have hRest : stateMap (read ++ [(name, s)]) (entriesOf (statesToJson rest)) =
        .ok (read ++ [(name, s)] ++ rest) :=
      stateMap_entriesOf (by rwa [List.append_assoc]) h.2
    rw [List.append_assoc, List.singleton_append] at hRest
    rw [statesToJson, entriesOf, stateMap, state_termOf h.1]
    show stateMap (Entries.insert name s read) (entriesOf (statesToJson rest)) = _
    rw [Entries.insert_of_nodup hNodup, hRest]

theorem branchList_termsOf {branches : List Branch}
    (h : Json.WellFormedItems (branchesToJson branches)) :
    branchList (termsOf (branchesToJson branches)) = .ok branches := by
  cases branches with
  | nil => rfl
  | cons b rest =>
    obtain ⟨name, root, states⟩ := b
    obtain ⟨hKeys, hStates⟩ := branch_states_wellFormed h.1
    have hRead : stateMap [] (entriesOf (statesToJson states)) = .ok ([] ++ states) :=
      stateMap_entriesOf hKeys hStates
    rw [branchesToJson, termsOf, branchList, branch_termOf hRead, branchList_termsOf h.2]
    rfl

end

/-! ## Drafts -/

/-- The fields of a state besides its kind. -/
theorem stateFields_ofFields {levels : Nat} {fields : List (String × Json)}
    (hKind : kindField ∉ Entries.keys fields) (hLevels : Json.nestingFields fields ≤ levels)
    (k : Option Kind) (entries : List (Term × Term)) :
    stateFields (some levels) k entries (Draft.ofFields fields) =
      .ok (k, entries ++ entriesOf fields) := by
  induction fields generalizing entries with
  | nil => rw [Draft.ofFields, stateFields, entriesOf, List.append_nil]
  | cons f rest ih =>
    obtain ⟨name, v⟩ := f
    rw [Entries.keys_cons, List.mem_cons, not_or] at hKind
    rw [Json.nestingFields] at hLevels
    have hOther : (name == kindField) = false := by simpa using Ne.symm hKind.1
    have hTerm : term (some levels) (Draft.ofValue v) = .ok (termOf v) :=
      term_ofValue (by rintro _ ⟨⟩; omega)
    rw [Draft.ofFields, stateFields, hOther, hTerm]
    show stateFields (some levels) k (entries ++ [(.str name, termOf v)]) (Draft.ofFields rest) = _
    rw [ih hKind.2 (by omega), List.append_assoc]
    rfl

theorem toJson_eq_kindedObject (s : State) : ∃ fields, s.toJson = kindedObject s.kind fields := by
  cases s <;> exact ⟨_, rfl⟩

/-- The draft of a state's value is read as the state. -/
theorem stateOfDraft_ofValue {levels : Nat} {s : State} (h : s.toJson.WellFormed)
    (hLevels : s.toJson.nesting ≤ levels + 1) :
    stateOfDraft (some levels) (Draft.ofValue s.toJson) = .ok s := by
  have hTerm := state_termOf h
  obtain ⟨fields, hFields⟩ := toJson_eq_kindedObject s
  rw [hFields] at h hLevels hTerm ⊢
  have hKind : kindField ∉ Entries.keys fields := (List.nodup_cons.mp h.1).1
  have hName : draftKind (.str s.kind.name) = .ok s.kind := by
    cases s.kind <;> rfl
  have hInner : Json.nestingFields fields ≤ levels := by
    rw [kindedObject, Json.nesting, Json.nestingFields] at hLevels
    omega
  have hRead := stateFields_ofFields hKind hInner (some s.kind) []
  show ((draftKind (.str s.kind.name) >>= _) >>= _) = _
  rw [hName]
  show (stateFields (some levels) (some s.kind) [] (Draft.ofFields fields) >>= _) = _
  rw [hRead]
  show JsonFault.lift (state (termOf (kindedObject s.kind fields))) = .ok s
  rw [hTerm]
  rfl

theorem statesOfFields_ofFields {levels : Nat} {read states : List (String × State)}
    (hNodup : (Entries.keys (read ++ states)).Nodup)
    (h : Json.WellFormedFields (statesToJson states))
    (hLevels : Json.nestingFields (statesToJson states) ≤ levels + 1) :
    statesOfFields (some levels) read (Draft.ofFields (statesToJson states)) =
      .ok (read ++ states) := by
  induction states generalizing read with
  | nil => rw [statesToJson, Draft.ofFields, statesOfFields, List.append_nil]
  | cons e rest ih =>
    obtain ⟨name, s⟩ := e
    rw [statesToJson, Json.nestingFields] at hLevels
    have hState : stateOfDraft (some levels) (Draft.ofValue s.toJson) = .ok s :=
      stateOfDraft_ofValue h.1 (by omega)
    rw [statesToJson, Draft.ofFields, statesOfFields, hState]
    show statesOfFields (some levels) (Entries.insert name s read)
      (Draft.ofFields (statesToJson rest)) = _
    rw [Entries.insert_of_nodup hNodup, ih (by rwa [List.append_assoc]) h.2 (by omega),
      List.append_assoc]
    rfl

theorem workflowOfDraft_ofValue {w : Workflow} (h : w.toJson.WellFormed)
    (hLevels : w.toJson.nesting ≤ Draft.maxLevels) :
    workflowOfDraft .text (Draft.ofValue w.toJson) = .ok w := by
  obtain ⟨hKeys, hStates⟩ := states_wellFormed h
  obtain ⟨root, states⟩ := w
  have hInner : Json.nestingFields (statesToJson states) ≤ Draft.maxLevels - 3 + 1 := by
    simp only [Workflow.toJson, Json.nesting, Json.nestingFields, Draft.maxLevels] at hLevels ⊢
    omega
  have hRead :
      statesOfDraft (stateLevels .text) (.obj (Draft.ofFields (statesToJson states)) true) =
      .ok states := by
    have hAll :
        statesOfFields (some (Draft.maxLevels - 3)) [] (Draft.ofFields (statesToJson states)) =
        .ok ([] ++ states) := statesOfFields_ofFields hKeys hStates hInner
    show (statesOfFields (some (Draft.maxLevels - 3)) [] (Draft.ofFields (statesToJson states)) >>=
      _) = _
    rw [hAll]
    rfl
  have hWorkflow : workflowOfDraft .text (Draft.ofValue (Workflow.toJson ⟨root, states⟩)) =
      ((some <$>
        statesOfDraft (stateLevels .text) (.obj (Draft.ofFields (statesToJson states)) true)) >>=
          fun states => fieldsOfDraft (stateLevels .text) ⟨some root, states⟩ []) >>= fun acc =>
          JsonFault.lift (acc.finish .named) := rfl
  rw [hWorkflow, hRead]
  rfl

end Definition

/-- A valid workflow is read back from its text, if no double stands in its cases and the text
nests no deeper than a reader goes: the same workflow, with all states in their order. The value
has to be one that a definition can hold: its whole numbers fit 64 bits, and the states of one
workflow differ in their names. -/
theorem Workflow.parseJson_toText {w : Workflow} (hValid : w.validate = .ok ())
    (hWell : w.toJson.WellFormed) (hFloat : w.toJson.FloatFree)
    (hLevels : w.toJson.nesting ≤ Json.Draft.maxLevels) : Workflow.parseJson w.toText = .ok w := by
  have hText : Definition.workflowOfText w.toText = .ok w := by
    rw [Definition.workflowOfText, Workflow.toText, Json.Draft.read_pretty hFloat hWell]
    show (Definition.workflowOfDraft .text (Json.Draft.ofValue w.toJson) >>= _) = _
    rw [Definition.workflowOfDraft_ofValue hWell hLevels]
    rfl
  rw [Workflow.parseJson, hText]
  show w.checked = .ok w
  rw [Workflow.checked, hValid]

/-- A switch on a text with a line break, into a map with a workflow and branches
with and without names. -/
def eachLayer : Workflow :=
  ⟨"a", [("a", .switch ⟨[⟨"x.y", .equals, .obj [("\n", .arr [.int (-1), .null])], "m"⟩], some "p"⟩),
    ("m", .map ⟨.workflow ⟨"t", [("t", .task ⟨"f", none⟩)]⟩, "xs", some "k", some 2, none⟩),
    ("p",
      .parallel
      ⟨[⟨some "left", ⟨"t", [("t", .task ⟨"f", none⟩)]⟩⟩,
        ⟨none, ⟨"t", [("t", .task ⟨"g", none⟩)]⟩⟩], none⟩)]⟩

/-- All of it is read back from its text. -/
theorem Workflow.parseJson_toText_eachLayer :
    eachLayer.validate = .ok () ∧ eachLayer.toJson.WellFormed ∧ eachLayer.toJson.FloatFree ∧
      eachLayer.toJson.nesting ≤ Json.Draft.maxLevels ∧
      Workflow.parseJson eachLayer.toText = .ok eachLayer := by
  have hValid : eachLayer.validate = .ok () := rfl
  have hWell : eachLayer.toJson.WellFormed := by decide
  have hFloat : eachLayer.toJson.FloatFree := by decide
  have hLevels : eachLayer.toJson.nesting ≤ Json.Draft.maxLevels := by decide
  exact ⟨hValid, hWell, hFloat, hLevels, Workflow.parseJson_toText hValid hWell hFloat hLevels⟩

end Orchestration
