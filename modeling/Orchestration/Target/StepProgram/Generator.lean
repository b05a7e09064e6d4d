import Orchestration.Target.StepProgram.Encoding

/-!
# Generating step programs

A generator turns workflows into documents and keeps the bodies that were lifted on the way,
by the ids of their documents, until `Generator.drain` turns them into documents too, with the
bodies lifted from inside them. A body that is lifted under an id that is there takes the
place of the earlier one.
-/

namespace Orchestration

mutual

/-- How deep workflows are nested in a workflow, itself included. -/
def Workflow.levels : Workflow → Nat
  | ⟨_, states⟩ => levelsOfStates states + 1

def levelsOfStates : List (String × State) → Nat
  | [] => 0
  | (_, s) :: rest => max s.levels (levelsOfStates rest)

def State.levels : State → Nat
  | .map ⟨body, _, _, _, _⟩ => body.levels
  | .parallel ⟨branches, _⟩ => levelsOfBranches branches
  | .task _ | .switch _ | .repeat _ | .loop _ => 0

/-- How deep workflows are nested in the body of a map. -/
def MapBody.levels : MapBody → Nat
  | .activity _ => 0
  | .workflow body => body.levels

def levelsOfBranches : List Branch → Nat
  | [] => 0
  | ⟨_, workflow⟩ :: rest => max workflow.levels (levelsOfBranches rest)

end

namespace StepProgram

/-- The bodies that wait for their documents, after some more were lifted. -/
def pendingAfter (pending : Entries Workflow) (lifted : List (String × Workflow)) :
    Entries Workflow :=
  pending.insertAll lifted

/-- The documents of bodies, each followed by those of the bodies lifted from inside it. A
body nests less deep than the workflow that it is lifted from, so the levels of the deepest
body bound the passes. -/
def liftedDocuments (resolver : Resolver) :
    Nat → Entries Workflow → Except CompileError (List (String × Json))
  | 0, _ => .ok []
  | passes + 1, bodies => do
    let documents ← bodies.mapM fun (id, body) => do
      let lifting := body.stepDocument (.top resolver id)
      let document ← lifting.result
      let inner ← liftedDocuments resolver passes (pendingAfter [] lifting.lifted)
      pure ((id, document) :: inner)
    pure documents.flatten

/-- Turns workflows into documents. -/
structure Generator where
  resolver : Resolver
  /-- The id of the documents, with which the ids of lifted bodies begin. -/
  documentId : String
  pending : Entries Workflow

namespace Generator

/-- A generator without pending bodies. -/
def fresh (resolver : Resolver) (documentId : String) : Generator := ⟨resolver, documentId, []⟩

def scope (g : Generator) : Scope := .top g.resolver g.documentId

/-- The ids of the bodies that wait for their documents. -/
def pendingIds (g : Generator) : List String := g.pending.keys

/-- Takes a result, and with it what was lifted on the way. -/
def take {α : Type} (g : Generator) (l : Lifting α) : Except CompileError α × Generator :=
  (l.result, { g with pending := pendingAfter g.pending l.lifted })

def document (g : Generator) (w : Workflow) : Except CompileError Json × Generator :=
  g.take (w.stepDocument g.scope)

def encodeState (g : Generator) (name : String) (s : State) :
    Except CompileError (List Fragment) × Generator :=
  g.take (StepProgram.encodeState g.scope name s)

/-- The greatest number of levels of a pending body. -/
def depth (g : Generator) : Nat := (g.pending.map fun (_, w) => w.levels).foldl max 0

/-- The documents of all pending bodies, which then are pending no more. -/
def drain (g : Generator) : Except CompileError (List (String × Json)) × Generator :=
  (liftedDocuments g.resolver g.depth g.pending, { g with pending := [] })

end Generator

end StepProgram

end Orchestration
