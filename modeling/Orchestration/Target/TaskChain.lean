import Orchestration.Target.Fragment

/-!
# Workflows as orchestrator functions

A workflow whose states are all tasks is written as a function that makes the calls in the order in
which the tasks follow one another. Every task is one line of the function (`TaskChain.callLine`); a
chain that comes back to a task has no such function.
-/

namespace Orchestration

namespace TaskChain

def target : Target := .durable

def prologue : String :=
  "import azure.durable_functions as df\n\n\n" ++
  "def handler(context: df.DurableOrchestrationContext):\n" ++
  "    input = context.get_input()\n" ++
  "    payload = input[\"payload\"]\n" ++
  "    request_id = input[\"request_id\"]\n"

def epilogue : String := "return payload\n\n\nmain = df.Orchestrator.create(handler)\n"

/-- The call of an activity with the payload, whose answer is the new payload. -/
def callLine (activity : String) : String :=
  "payload = yield context.call_activity(" ++ (Json.str activity).compact ++
    ", \x7b\"payload\": payload, \"request_id\": request_id\x7d)"

/-- A call and the task after it. -/
structure Link where
  line : String
  next : Option String
deriving DecidableEq

def Link.toJson (l : Link) : Json := .obj [("line", .str l.line), ("next", Json.strOrNull l.next)]

def Link.ofJson (v : Json) : Link :=
  ⟨((v.fieldOrNull "line").text?).getD "", (v.fieldOrNull "next").text?⟩

def link (t : TaskState) : Link := ⟨callLine t.activity, t.next⟩

/-- The link of a state; only tasks have one. -/
def stateLink (name : String) : State → Except CompileError Link
  | .task t => .ok (link t)
  | s => .error (.unsupported target s.kind name)

def encodeState (name : String) (s : State) : Except CompileError (List Fragment) := do
  pure [(name, (← stateLink name s).toJson)]

/-- The links of states, under their names. -/
def links (taken : List String) : List (String × State) → Except CompileError (Entries Link)
  | [] => .ok []
  | (name, s) :: rest => do
    let l ← stateLink name s
    let taken ← claimNames target name taken [name]
    pure ((name, l) :: (← links taken rest))

/-- The lines from a name on, in the order in which the links follow one another. No chain is longer
than there are links, so as many steps and one more suffice. -/
def follow (links : Entries Link) (visited : List String) (name : String) :
    Nat → Except CompileError (List String)
  | 0 => .error (.invalid target name .cycle)
  | fuel + 1 =>
    if visited.contains name then .error (.invalid target name .cycle)
    else
      match Entries.get? name links with
      | none => .error (.invalid target name .notEncoded)
      | some l =>
        match l.next with
        | none => .ok [l.line]
        | some next => do pure (l.line :: (← follow links (name :: visited) next fuel))

/-- The function that makes the calls of the lines. -/
def source (lines : List String) : String :=
  prologue ++ String.join (lines.map fun l => "    " ++ l ++ "\n") ++ epilogue

/-- The function that starts at the root and follows the links. -/
def assembleLinks (root : String) (links : Entries Link) : Except CompileError String := do
  pure (source (← follow links [] root (links.length + 1)))

/-- The function for fragments; of two fragments of one name the later one counts. -/
def assemble (w : Workflow) (fs : List Fragment) : Except CompileError Json := do
  let links := Entries.ofWrites (fs.map fun (name, body) => (name, Link.ofJson body))
  pure (.str (← assembleLinks w.root links))

def toText : Json → Except CompileError String
  | .str s => .ok s
  | v => .error (.notText v)

end TaskChain

namespace Workflow

def orchestrator (w : Workflow) : Except CompileError String := do
  TaskChain.assembleLinks w.root (← TaskChain.links [] w.states)

end Workflow

end Orchestration
