import Orchestration.Json.Draft
import Orchestration.Target.Error

/-!
# Arguments of the command

`Invocation.parse` reads what the command is asked to do from its arguments. Options may stand
anywhere after the action, and those for every action (`globalOptions`) also before it; a value
stands in the same argument or in the next one, which then does not look like an option.
-/

namespace Orchestration.Command

/-- What the command can do. -/
inductive Action where
  | run (file : String) (payload : Json) (echo : Bool) (requestId : Option String)
      (timeoutSecs maxDepth : Option Nat)
  | generate (file : String) (target : Target) (out documentId : Option String)
  | validate (file : String)

/-- What the command is asked to do. -/
structure Invocation where
  settingsFile : Option String
  action : Action

/-- Why there is nothing to do. -/
inductive Refusal where
  /-- The arguments do not make sense. -/
  | usage
  /-- Help or the version is asked for. -/
  | help
deriving DecidableEq

/-! ## Options -/

/-- An option. -/
structure OptionSpec where
  name : String
  letter : Option Char
  takesValue : Bool
  repeats : Bool
deriving DecidableEq

/-- An option that may be given once with a value. -/
def valued (name : String) (letter : Option Char) : OptionSpec := ⟨name, letter, true, false⟩

def globalOptions : List OptionSpec := [⟨"verbose", some 'v', false, true⟩, valued "config" none]

def runOptions : List OptionSpec :=
  [valued "payload" (some 'p'), ⟨"echo", none, false, false⟩, valued "request-id" none,
    valued "timeout-secs" none, valued "max-depth" none]

def generateOptions : List OptionSpec :=
  [valued "backend" (some 'b'), valued "out" (some 'o'), valued "prefix" none]

/-- The options of an action, if there is one of the name. -/
def actionOptions? (name : String) : Option (List OptionSpec) :=
  if name = "run" then some runOptions
  else if name = "generate" then some generateOptions
  else if name = "validate" then some []
  else none

/-- What stands in arguments: options with their values, and other values. -/
structure Given where
  options : List (String × String)
  values : List String

def looksLikeOption (arg : String) : Bool := arg.startsWith "-" && arg != "-"

/-- Adds an option; one that does not repeat is given once. -/
def Given.addOption (g : Given) (spec : OptionSpec) (value : String) : Except Refusal Given :=
  if !spec.repeats && g.options.any fun o => o.1 == spec.name then .error .usage
  else .ok { g with options := g.options ++ [(spec.name, value)] }

/-- Where reading options has come to: an option may wait for its value. -/
structure Scan where
  given : Given
  waiting : Option OptionSpec

/-- Reads a long option, whose dashes are read. -/
def Scan.long (s : Scan) (specs : List OptionSpec) (arg : List Char) : Except Refusal Scan :=
  let name := String.ofList (arg.takeWhile (· != '='))
  let value := match arg.dropWhile (· != '=') with
    | _ :: v => some (String.ofList v)
    | [] => none
  match specs.find? fun o => o.name == name, value with
  | none, none => .error (if name = "help" then .help else .usage)
  | none, some _ => .error .usage
  | some spec, some v =>
    if spec.takesValue then do pure { s with given := ← s.given.addOption spec v }
      else .error .usage
  | some spec, none =>
    if spec.takesValue then .ok { s with waiting := some spec }
    else do pure { s with given := ← s.given.addOption spec "" }

/-- Reads short options that stand together, whose dash is read. -/
def Scan.short (s : Scan) (specs : List OptionSpec) : List Char → Except Refusal Scan
  | [] => .ok s
  | c :: rest =>
    match specs.find? fun o => o.letter == some c with
    | none => .error (if c = 'h' then .help else .usage)
    | some spec =>
      if spec.takesValue then
        match rest with
        | [] => .ok { s with waiting := some spec }
        | '=' :: v => do pure { s with given := ← s.given.addOption spec (String.ofList v) }
        | v => do pure { s with given := ← s.given.addOption spec (String.ofList v) }
      else
        match rest with
        | '=' :: _ => .error .usage
        | rest => do
          Scan.short { s with given := ← s.given.addOption spec "" } specs rest

/-- Reads an argument that looks like an option, and is not the mark after which there are none. -/
def Scan.option (s : Scan) (specs : List OptionSpec) (arg : String) : Except Refusal Scan :=
  match arg.toList with
  | '-' :: '-' :: rest => s.long specs rest
  | cs => s.short specs (cs.drop 1)

/-- Reads options and values up to the end. -/
def Scan.all (specs : List OptionSpec) : Scan → List String → Except Refusal Given
  | s, [] => if s.waiting.isSome then .error .usage else .ok s.given
  | s, arg :: rest =>
    if looksLikeOption arg then
      if s.waiting.isSome then .error .usage
      else if arg = "--" then .ok { s.given with values := s.given.values ++ rest }
      else do Scan.all specs (← s.option specs arg) rest
    else
      match s.waiting with
      | some spec => do Scan.all specs ⟨← s.given.addOption spec arg, none⟩ rest
      | none =>
        Scan.all specs { s with given := { s.given with values := s.given.values ++ [arg] } } rest

/-- What is read before the action: options of every action, the action's
name and what follows it. -/
structure Front where
  options : List (String × String)
  action : String
  rest : List String

/-- Reads up to the action. -/
def Scan.front : Scan → List String → Except Refusal Front
  | _, [] => .error .usage
  | s, arg :: rest =>
    if looksLikeOption arg then
      if s.waiting.isSome || arg = "--" then .error .usage
      else if arg = "--version" || arg = "-V" then .error .help
      else do Scan.front (← s.option globalOptions arg) rest
    else
      match s.waiting with
      | some spec => do Scan.front ⟨← s.given.addOption spec arg, none⟩ rest
      | none => if arg = "help" then .error .help else .ok ⟨s.given.options, arg, rest⟩

/-! ## Values -/

/-- The greatest number in arguments. -/
def maxNumber : Nat := 18446744073709551615

/-- A number, maybe with a plus. -/
def number (s : String) : Except Refusal Nat :=
  let ds := match s.toList with
    | '+' :: ds => ds
    | ds => ds
  if ds.isEmpty || !ds.all Char.isDigit then .error .usage
  else
    let n := Json.Numeral.digitsValue ds
    if n ≤ maxNumber then .ok n else .error .usage

/-- A path of a file, which is not empty. -/
def path (s : String) : Except Refusal String := if s.isEmpty then .error .usage else .ok s

def json (s : String) : Except Refusal Json :=
  match Json.ofText? s with
  | some v => .ok v
  | none => .error .usage

def target (s : String) : Except Refusal Target :=
  match Target.all.find? fun t => t.name == s with
  | some t => .ok t
  | none => .error .usage

namespace Given

def has (g : Given) (name : String) : Bool := (g.options.lookup name).isSome

/-- The value of an option, if it is given. -/
def value? {α : Type} (g : Given) (name : String) (read : String → Except Refusal α) :
    Except Refusal (Option α) :=
  match g.options.lookup name with
  | some v => some <$> read v
  | none => .ok none

/-- The value of an option that has to be given. -/
def value {α : Type} (g : Given) (name : String) (read : String → Except Refusal α) :
    Except Refusal α :=
  match g.options.lookup name with
  | some v => read v
  | none => .error .usage

def file (g : Given) : Except Refusal String :=
  match g.values with
  | [f] => path f
  | _ => .error .usage

end Given

/-! ## Invocations -/

def Action.ofGiven (name : String) (g : Given) : Except Refusal Action := do
  let file ← g.file
  if name = "run" then
    let payload ← g.value? "payload" json
    let timeoutSecs ← g.value? "timeout-secs" number
    let maxDepth ← g.value? "max-depth" number
    let requestId ← g.value? "request-id" .ok
    pure (.run file (payload.getD (.obj [])) (g.has "echo") requestId timeoutSecs maxDepth)
  else if name = "generate" then
    let target ← g.value "backend" target
    let out ← g.value? "out" path
    let documentId ← g.value? "prefix" .ok
    pure (.generate file target out documentId)
  else pure (.validate file)

def Invocation.parse (args : List String) : Except Refusal Invocation := do
  let front ← Scan.front ⟨⟨[], []⟩, none⟩ args
  match actionOptions? front.action with
  | none => .error .usage
  | some specs =>
    let given ← Scan.all (globalOptions ++ specs) ⟨⟨[], []⟩, none⟩ front.rest
    let outer ← Given.value? ⟨front.options, []⟩ "config" path
    let inner ← given.value? "config" path
    pure ⟨inner.or outer, ← Action.ofGiven front.action given⟩

end Orchestration.Command
