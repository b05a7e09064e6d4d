import Orchestration.Definition.States
import Orchestration.Json.Draft

/-!
# Definitions in JSON

A definition in JSON is read from the draft of its text, in the order of the text, so that the first
fault is found, be it in the text or in the form. Inside a state the whole state is read before its
form is looked at; only its kind is looked at where it stands.

* `Workflow.ofDraft` reads a workflow, `Workflow.parseJson` a whole text.
* `Workflow.ofJson` reads a workflow from a value, which is a draft without faults.
-/

namespace Orchestration.Definition

open Json (Draft)

/-- Why a JSON text is no definition. -/
inductive JsonFault where
  /-- The text is no JSON, or nests too deep. -/
  | malformed
  | mismatch (m : Mismatch)

/-- Where a draft comes from. -/
inductive Origin where
  /-- From a text, which may nest only so deep. -/
  | text
  /-- From a value. -/
  | value
deriving DecidableEq

def JsonFault.lift {α : Type} : Except Mismatch α → Except JsonFault α
  | .ok a => .ok a
  | .error m => .error (.mismatch m)

open JsonFault (lift)

/-! ## Terms of drafts -/

/-- The levels left inside an array or an object; without a bound there is no end of them. -/
def innerLevels : Option Nat → Option (Option Nat)
  | none => some none
  | some 0 => none
  | some (n + 1) => some (some n)

mutual

/-- The term that a draft without faults stands for. -/
def term (levels : Option Nat) : Draft → Except JsonFault Term
  | .null => .ok .null
  | .bool b => .ok (.bool b)
  | .int n => .ok (.int n)
  | .float x => .ok (.float x)
  | .str s => .ok (.str s)
  | .flawed | .broken => .error .malformed
  | .arr items closed =>
    match innerLevels levels with
    | none => .error .malformed
    | some levels => do
      let ts ← termItems levels items
      if closed then pure (.seq ts) else .error .malformed
  | .obj fields closed =>
    match innerLevels levels with
    | none => .error .malformed
    | some levels => do
      let ts ← termFields levels fields
      if closed then pure (.map ts) else .error .malformed

def termItems (levels : Option Nat) : List Draft → Except JsonFault (List Term)
  | [] => .ok []
  | d :: rest => do
    let t ← term levels d
    pure (t :: (← termItems levels rest))

def termFields (levels : Option Nat) : List (String × Draft) → Except JsonFault (List (Term × Term))
  | [] => .ok []
  | (k, d) :: rest => do
    let t ← term levels d
    pure ((.str k, t) :: (← termFields levels rest))

end

/-! ## Scalars of drafts -/

/-- What a draft is, for a message; a scalar with a fault is a fault of the text. -/
def found : Draft → Except JsonFault Found
  | .null => .ok .null
  | .bool b => .ok (.bool b)
  | .int n => .ok (.int n)
  | .float x => .ok (.float x)
  | .str s => .ok (.str s)
  | .flawed | .broken => .error .malformed
  | .arr _ _ => .ok .seq
  | .obj _ _ => .ok .map

/-- The mismatch of a draft with what is wanted. -/
def draftMismatch {α : Type} (d : Draft) (wanted : Wanted) : Except JsonFault α := do
  .error (.mismatch (.wrongType (← found d) wanted))

def draftText : Draft → Except JsonFault String
  | .str s => .ok s
  | d => draftMismatch d .string

/-- A draft that names the kind of a state. -/
def draftKind : Draft → Except JsonFault Kind
  | .str s => lift (kind (.str s))
  | d => draftMismatch d .variant

/-! ## States and workflows -/

/-- The kind and the other entries of a state, in the order of the text. -/
def stateFields (levels : Option Nat) :
    Option Kind → List (Term × Term) → List (String × Draft) →
      Except JsonFault (Option Kind × List (Term × Term))
  | k, entries, [] => .ok (k, entries)
  | k, entries, (name, d) :: rest =>
    if name == kindField then
      if k.isSome then .error (.mismatch (.duplicate kindField))
      else do stateFields levels (some (← draftKind d)) entries rest
    else do
      let t ← term levels d
      stateFields levels k (entries ++ [(.str name, t)]) rest

/-- A kind with the entries of a state of that kind, as a term. -/
def kindedEntries (k : Kind) (entries : List (Term × Term)) : Term :=
  .map ((.str kindField, .str k.name) :: entries)

/-- A state, whose parts may nest so deep. -/
def stateOfDraft (levels : Option Nat) : Draft → Except JsonFault State
  | .obj fields closed => do
    let (k, entries) ← stateFields levels none [] fields
    if closed then
      match k with
      | some k => lift (state (kindedEntries k entries))
      | none => .error (.mismatch (.missing kindField))
    else .error .malformed
  | .arr [] closed =>
    if closed then .error (.mismatch (.missing kindField)) else .error .malformed
  | .arr (d :: rest) closed => do
    let k ← draftKind d
    let items ← termItems levels rest
    if closed then lift (state (.seq (.str k.name :: items))) else .error .malformed
  | d => draftMismatch d .state

def statesOfFields (levels : Option Nat) (acc : Entries State) :
    List (String × Draft) → Except JsonFault (Entries State)
  | [] => .ok acc
  | (name, d) :: rest => do
    statesOfFields levels (acc.insert name (← stateOfDraft levels d)) rest

def statesOfDraft (levels : Option Nat) : Draft → Except JsonFault (Entries State)
  | .obj fields closed => do
    let states ← statesOfFields levels [] fields
    if closed then pure states else .error .malformed
  | d => draftMismatch d .map

def onceInText {α : Type} (field : String) (slot : Option α) (value : Unit → Except JsonFault α) :
    Except JsonFault (Option α) :=
  if slot.isSome then .error (.mismatch (.duplicate field)) else some <$> value ()

/-- The fields of a workflow in the order of the text. Other fields have to be well-formed. -/
def fieldsOfDraft (levels : Option Nat) (acc : WorkflowFields) :
    List (String × Draft) → Except JsonFault WorkflowFields
  | [] => .ok acc
  | (name, d) :: rest =>
    if name == "root" then do
      let root ← onceInText name acc.root fun _ => draftText d
      fieldsOfDraft levels { acc with root } rest
    else if name == "states" then do
      let states ← onceInText name acc.states fun _ => statesOfDraft levels d
      fieldsOfDraft levels { acc with states } rest
    else if d.isWhole then fieldsOfDraft levels acc rest
    else .error .malformed

/-- The item at a position of a list that may have ended too early. -/
def itemOfDraft {α : Type} (items : List Draft) (closed : Bool) (i : Nat)
    (read : Draft → Except JsonFault α) : Except JsonFault (Option α) :=
  match items[i]? with
  | some d => some <$> read d
  | none => if closed then .ok none else .error .malformed

/-- What a list with more items than a workflow has fields is. -/
def tooManyItems (origin : Origin) (length : Nat) : JsonFault :=
  match origin with
  | .text => .malformed
  | .value => .mismatch (.wrongLength length .fewer)

/-- The levels left inside a state of a workflow. -/
def stateLevels : Origin → Option Nat
  | .text => some (Draft.maxLevels - 3)
  | .value => none

def workflowOfDraft (origin : Origin) : Draft → Except JsonFault Workflow
  | .obj fields closed => do
    let acc ← fieldsOfDraft (stateLevels origin) ⟨none, none⟩ fields
    if closed then lift (acc.finish .named) else .error .malformed
  | .arr items closed => do
    let root ← itemOfDraft items closed 0 draftText
    let states ←
      if root.isSome then itemOfDraft items closed 1 (statesOfDraft (stateLevels origin))
      else pure none
    let w ← lift (WorkflowFields.finish ⟨root, states⟩ .listed)
    if items.length ≤ workflowRecord.fields.length ∧ closed then pure w
    else .error (tooManyItems origin items.length)
  | d => draftMismatch d (.record workflowRecord.name)

def workflowOfText (text : String) : Except JsonFault Workflow := do
  let (d, rest) := Draft.read text
  let w ← workflowOfDraft .text d
  if (Draft.skip rest).isEmpty then pure w else .error .malformed

def workflowOfJson (v : Json) : Except JsonFault Workflow :=
  workflowOfDraft .value (Draft.ofValue v)

/-- What a value is, for a message. -/
def foundInJson : Json → Found
  | .null => .null
  | .bool b => .bool b
  | .int n => .int n
  | .float x => .float x
  | .str s => .str s
  | .arr _ => .seq
  | .obj _ => .map

/-- An operator from a value: its symbol, or an object with the symbol over `null`. -/
def operatorOfJson : Json → Except Mismatch Comparison
  | .str s => operator (.str s)
  | .obj [(k, v)] => do
    let i ← (Term.str k).variant operatorSymbols
    match v with
    | .null => pure (operatorAt i)
    | v => .error (.wrongType (foundInJson v) .nothing)
  | .obj _ => .error (.wrongValue .map .singleField)
  | v => .error (.wrongType (foundInJson v) .operator)

end Orchestration.Definition
