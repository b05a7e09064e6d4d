import Orchestration.Definition.States
import Orchestration.Yaml.Document

/-!
# Definitions in YAML

The root and the names of the states of a definition are the texts of scalars, whatever these would
stand for. Inside a state scalars count as what they stand for, and no tag of the document's own may
stand there.

`workflowOfYaml?` reads a whole text.
-/

namespace Orchestration.Definition

open Yaml (Document Node)
open Yaml.Document (Reading)
open Yaml.Document.Reading (fail ofOption)

/-! ## Terms -/

/-- The term of what a scalar stands for; a whole number has to fit 64 bits. -/
def scalarTerm? (text : String) : Yaml.Plain → Option Term
  | .null => some .null
  | .bool b => some (.bool b)
  | .int n => some (.int n)
  | .wide _ => none
  | .float x => some (.float x)
  | .notFinite => some .notFinite
  | .text => some (.str text)

/-- The term of a node, which nests so deep at most. -/
def nodeTerm (d : Document) : Nat → Node → Reading Term
  | levels, n => do
    match ← d.follow n with
    | .alias _ => fail
    | .scalar props text style =>
      if Yaml.isLocalTag props.tag then fail
      else ofOption (Yaml.scalarValue? props.tag text style >>= scalarTerm? text)
    | .seq props items =>
      match levels with
      | 0 => fail
      | inside + 1 =>
        if Yaml.isLocalTag props.tag then fail
        else .seq <$> items.mapM (nodeTerm d inside)
    | .map props entries =>
      match levels with
      | 0 => fail
      | inside + 1 =>
        if Yaml.isLocalTag props.tag then fail
        else .map <$> entries.mapM fun (k, v) => do
          let key ← nodeTerm d inside k
          pure (key, ← nodeTerm d inside v)

/-! ## States and workflows -/

def maxLevels : Nat := 128

/-- The levels left inside a state, which stands two levels deep and is one itself. -/
def levelsInState : Nat := maxLevels - 3

/-- A node that names the kind of a state. -/
def nodeKind (d : Document) (n : Node) : Reading Kind := do
  ofOption (kind (.str (← d.text n))).toOption

/-- The kind and the other entries of a state. -/
def stateEntries (d : Document) :
    Option Kind → List (Term × Term) → List (Node × Node) →
      Reading (Option Kind × List (Term × Term))
  | k, acc, [] => pure (k, acc)
  | k, acc, (key, v) :: rest => do
    let key ← nodeTerm d levelsInState key
    if isKindField key then
      if k.isSome then fail else stateEntries d (some (← nodeKind d v)) acc rest
    else do
      let t ← nodeTerm d levelsInState v
      stateEntries d k (acc ++ [(key, t)]) rest

/-- A state as a term that names its kind first. -/
def stateTerm (d : Document) (n : Node) : Reading Term := do
  match ← d.follow n with
  | .map props entries =>
    if Yaml.isLocalTag props.tag then fail
    else do
      let (k, entries) ← stateEntries d none [] entries
      let k ← ofOption k
      pure (.map ((.str kindField, .str k.name) :: entries))
  | .seq props (first :: items) =>
    if Yaml.isLocalTag props.tag then fail
    else do
      let k ← nodeKind d first
      let items ← items.mapM (nodeTerm d levelsInState)
      pure (.seq (.str k.name :: items))
  | _ => fail

def statesOfEntries (d : Document) (acc : Entries State) :
    List (Node × Node) → Reading (Entries State)
  | [] => pure acc
  | (key, v) :: rest => do
    let name ← d.text key
    let s ← ofOption (state (← stateTerm d v)).toOption
    statesOfEntries d (acc.insert name s) rest

/-- The fields of a workflow, each at most once. Other fields may hold anything. -/
def workflowOfEntries (d : Document) (acc : WorkflowFields) :
    List (Node × Node) → Reading WorkflowFields
  | [] => pure acc
  | (key, v) :: rest => do
    match ← d.text key with
    | "root" =>
      if acc.root.isSome then fail
      else workflowOfEntries d { acc with root := some (← d.text v) } rest
    | "states" =>
      if acc.states.isSome then fail
      else do
        let states ← statesOfEntries d [] (← d.entries v)
        workflowOfEntries d { acc with states := some states } rest
    | _ => workflowOfEntries d acc rest

def workflowOfDocument (d : Document) : Reading Workflow := do
  let acc ← workflowOfEntries d ⟨none, none⟩ (← d.entries d.root)
  ofOption (acc.finish .named).toOption

def workflowOfYaml? (text : String) : Option Workflow := do
  let d ← Document.ofText? text
  d.read (workflowOfDocument d)

end Orchestration.Definition
