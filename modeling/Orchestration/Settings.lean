import Orchestration.Activity.Resolver
import Orchestration.Definition.Error
import Orchestration.Run.Transition
import Orchestration.Yaml.Document

/-!
# Settings

How workflows are run and compiled on a host: read from a YAML text, with defaults for what is not
written (`Settings.parse?`). All sections and fields may be left out, and other fields are ignored.
-/

namespace Orchestration

/-- How workflows are run. -/
structure RunSettings where
  /-- How deep workflows may nest. -/
  maxDepth : Nat := 8
  /-- How many seconds a call may take; zero is no limit. -/
  activityTimeoutSecs : Nat := 60
  /-- How many elements of a map that does not say so are under way at a time. -/
  mapConcurrency : Option Nat := none

/-- How many seconds a call may take, if that is limited. -/
def RunSettings.activityTimeout (s : RunSettings) : Option Nat :=
  if s.activityTimeoutSecs = 0 then none else some s.activityTimeoutSecs

def RunSettings.limits (s : RunSettings) : Limits :=
  { maxDepth := s.maxDepth
    activityTimeout := s.activityTimeout.map (· * 1000)
    mapConcurrency := s.mapConcurrency }

/-- Where activities are called. -/
structure ActivitySettings where
  endpointTemplate : String := "http://localhost:8080/" ++ Resolver.marker
  endpoints : Entries String := []

/-- Where activities are called, as addresses. -/
def ActivitySettings.resolver (s : ActivitySettings) : Resolver := ⟨s.endpointTemplate, s.endpoints⟩

/-- How documents name activities and one another. -/
structure DocumentSettings where
  resourceTemplate : String := "arn:aws:lambda:us-east-1:000000000000:function:" ++ Resolver.marker
  resources : Entries String := []
  /-- With what the ids of lifted bodies begin. -/
  workflowPrefix : Option String := none

/-- How documents name activities, as addresses. -/
def DocumentSettings.resolver (s : DocumentSettings) : Resolver := ⟨s.resourceTemplate, s.resources⟩

/-- The settings of a host. -/
structure Settings where
  interpreter : RunSettings := {}
  activities : ActivitySettings := {}
  compiler : DocumentSettings := {}

/-- Why there are no settings. -/
inductive SettingsError where
  | unreadable (path : String)
  | malformed (path : String)
deriving DecidableEq

def SettingsError.message : SettingsError → String
  | .unreadable path => s!"Failed to read config file from {path}"
  | .malformed path => s!"Failed to deserialize config from {path}"

namespace Settings

open Yaml (Document Node)
open Yaml.Document (Reading)
open Yaml.Document.Reading (fail ofOption)

/-! ## Values -/

/-- The greatest number in settings. -/
def maxCount : Int := 18446744073709551615

/-- The number that a scalar is written as, in any base and maybe with a plus. -/
def count? (tag : Option String) (text : String) (style : Yaml.ScalarStyle) : Option Nat :=
  if style = .plain ∨ (style = .literal ∧ tag = some (Yaml.schemaTag "int")) then
    match Yaml.Plain.whole? text.toList with
    | some n => if n ≤ maxCount ∧ text.toList.head? ≠ some '-' then some n.toNat else none
    | none => none
  else none

def count (d : Document) (n : Node) : Reading Nat := do
  match ← d.follow n with
  | .scalar props text style => ofOption (count? props.tag text style)
  | _ => fail

/-- Whether a scalar stands for nothing; one that its tag calls null has to be null. -/
def isAbsent? (tag : Option String) (text : String) (style : Yaml.ScalarStyle) : Option Bool :=
  if style = .plain then
    match tag with
    | none => some (text.isEmpty || Yaml.Plain.isNull text)
    | some tag =>
      if tag = Yaml.schemaTag "null" then (if Yaml.Plain.isNull text then some true else none)
      else some false
  else some false

def optional {α : Type} (d : Document) (read : Node → Reading α) (n : Node) :
    Reading (Option α) := do
  let n ← d.follow n
  match n with
  | .scalar props text style =>
    if ← ofOption (isAbsent? props.tag text style) then pure none else some <$> read n
  | _ => some <$> read n

/-- Texts by name; the last one of a name counts. -/
def texts (d : Document) (n : Node) : Reading (Entries String) := do
  let entries ← (← d.entries n).mapM fun (k, v) => do
    let name ← d.text k
    pure (name, ← d.text v)
  pure (Entries.ofWrites entries)

def sectionFields (d : Document) (n : Node) : Reading (List (String × Node)) := do
  (← d.entries n).mapM fun (k, v) => do pure (← d.text k, v)

/-- A field of a section; one that is not written has a default, and none is written twice. -/
def field {α : Type} (fields : List (String × Node)) (name : String) (default : α)
    (read : Node → Reading α) : Reading α :=
  match fields.filter fun f => f.1 == name with
  | [] => pure default
  | [(_, n)] => read n
  | _ => fail

/-! ## Sections -/

def readInterpreter (d : Document) (n : Node) : Reading RunSettings := do
  let fields ← sectionFields d n
  let maxDepth ← field fields "max_depth" ({} : RunSettings).maxDepth (count d)
  let secs ← field fields "activity_timeout_secs" ({} : RunSettings).activityTimeoutSecs (count d)
  let concurrency ← field fields "map_max_concurrency" none (optional d (count d))
  pure ⟨maxDepth, secs, concurrency⟩

def readActivities (d : Document) (n : Node) : Reading ActivitySettings := do
  let fields ← sectionFields d n
  let template ← field fields "endpoint_template" ({} : ActivitySettings).endpointTemplate d.text
  let endpoints ← field fields "endpoints" [] (texts d)
  pure ⟨template, endpoints⟩

def readCompiler (d : Document) (n : Node) : Reading DocumentSettings := do
  let fields ← sectionFields d n
  let template ← field fields "resource_template" ({} : DocumentSettings).resourceTemplate d.text
  let resources ← field fields "resources" [] (texts d)
  let workflowPrefix ← field fields "workflow_prefix" none (optional d d.text)
  pure ⟨template, resources, workflowPrefix⟩

def ofDocument (d : Document) : Reading Settings := do
  let fields ← sectionFields d d.root
  let interpreter ← field fields "interpreter" {} (readInterpreter d)
  let activities ← field fields "activities" {} (readActivities d)
  let compiler ← field fields "compiler" {} (readCompiler d)
  pure ⟨interpreter, activities, compiler⟩

def parse? (text : String) : Option Settings := do
  let d ← Document.ofText? text
  d.read (ofDocument d)

/-- The settings in a file of the given path from what reading the file came to. -/
def ofFile (path : String) (content : Except ReadFault String) : Except SettingsError Settings :=
  match content with
  | .error _ => .error (.unreadable path)
  | .ok text =>
    match parse? text with
    | some s => .ok s
    | none => .error (.malformed path)

end Settings

end Orchestration
