import Orchestration.Proofs.StepProgram.Histories

/-!
# Encoding in place

The functions that encode are handed the scope that they encode in. An encoder has one scope
instead: it sets the scope of a branch before it encodes the branch and puts the former one back
afterwards, whether that failed or not, and it lifts bodies straight into what waits for documents.

* `Encoding.Agrees`: in place a computation gives the same result as with the scope handed down,
  lifts the same bodies, and leaves the scope as it was.
* `Encoder.generate_after`: the document of a workflow does not depend on the calls that came
  before.
-/

namespace Orchestration

namespace StepProgram

/-- What an encoder sets while it encodes. -/
structure Encoder where
  scope : Scope
  pending : Entries Workflow

/-- A computation of an encoder. What it has set by then stays so if it fails. -/
abbrev Encoding := ExceptT CompileError (StateM Encoder)

namespace Encoding

variable {α β : Type}

def ofExcept (x : Except CompileError α) : Encoding α := ExceptT.mk (pure x)

def scope : Encoding Scope := do return (← get).scope

def lift (id : String) (body : Workflow) : Encoding Unit :=
  modify fun e => { e with pending := e.pending.insert id body }

/-- Sets another scope and then puts the former one back, also after a failure. -/
def inScope (change : Scope → Scope) (x : Encoding α) : Encoding α := ExceptT.mk do
  let former := (← get).scope
  modify fun e => { e with scope := change former }
  let result ← x.run
  modify fun e => { e with scope := former }
  return result

def liftedMap (name : String) (m : MapState) (next : Option String) (body : Workflow) :
    Encoding StepProgram := do
  lift (liftedId (← scope) name) body
  ofExcept (StepProgram.liftedMap (← scope) name m next body).result

def map (name : String) (m : MapState) : Encoding StepProgram :=
  match m.body with
  | .activity activity => do ofExcept (inlineMap (← scope) name m activity)
  | .workflow body => liftedMap name m m.next body

mutual

def states (taken : List String) : List (String × State) → Encoding StepProgram
  | [] => pure []
  | (name, s) :: rest => do
    let steps ← state name s
    let taken ← ofExcept (claimNames target name taken (steps.map Prod.fst))
    let more ← states taken rest
    pure (steps ++ more)

def state (name : String) : State → Encoding StepProgram
  | .task t => do ofExcept (taskSteps (← scope) name t)
  | .switch s => do pure (switchSteps (← scope) name s)
  | .map m => map name m
  | .repeat r => do ofExcept (chainSteps (← scope) (r.unrolled name))
  | .loop l => do ofExcept (loopSteps (← scope) name l)
  | .parallel ⟨bs, next⟩ => do
    let steps ← branches name bs
    pure (parallelSteps (← scope) name ⟨bs, next⟩ steps)

def branches (name : String) : List Branch → Encoding (List (String × StepProgram))
  | [] => pure []
  | b :: rest => do
    let sc ← scope
    let slot := sc.name (name ++ "_" ++ b.key)
    let (steps, array) ← inScope (fun sc => sc.inBranch slot) (branch name b)
    let program ← ofExcept (wrapBranch sc name slot b.workflow.root steps array)
    let more ← branches name rest
    pure (program :: more)

def branch (name : String) : Branch → Encoding (StepProgram × Option String)
  | ⟨bname, ⟨root, ss⟩⟩ =>
    match Entries.get? root ss with
    | some (.task _) => do
      let steps ← states reserved ss
      pure (steps, none)
    | some (.map m) => do
      let steps ← match Branch.elementWorkflow ⟨bname, ⟨root, ss⟩⟩ with
        | some element => liftedMap root m none element
        | none => map root m
      pure (steps, some m.array)
    | some s => ofExcept (.error (.unsupported target s.kind name))
    | none => ofExcept (.error (.invalid target name (.undeclaredRoot root)))

end

/-! ## In place and handed down -/

/-- The result is the same in place, the same bodies are lifted, and the
scope is as it was before. -/
def Agrees (x : Encoding α) (l : Scope → Lifting α) : Prop :=
  ∀ e : Encoder, x.run.run e =
    ((l e.scope).result, { e with pending := pendingAfter e.pending (l e.scope).lifted })

namespace Agrees

theorem pure (a : α) : Agrees (Pure.pure a) fun _ => Pure.pure a :=
  fun _ => rfl

theorem ofExcept (x : Except CompileError α) : Agrees (Encoding.ofExcept x) fun _ => .ofExcept x :=
  fun _ => rfl

theorem scope : Agrees Encoding.scope fun sc => Pure.pure sc :=
  fun _ => rfl

theorem lift (id : String) (body : Workflow) :
    Agrees (Encoding.lift id body) fun _ => .lift id body :=
  fun _ => rfl

theorem bind {x : Encoding α} {f : α → Encoding β} {l : Scope → Lifting α}
    {g : α → Scope → Lifting β} (hx : x.Agrees l) (hf : ∀ a, (f a).Agrees (g a)) :
    (x >>= f).Agrees fun sc => l sc >>= fun a => g a sc := by
  intro e
  have hFirst := hx e
  rw [ExceptT.run_bind, StateT.run_bind, hFirst]
  cases hResult : (l e.scope).result with
  | error error =>
    simp only [Bind.bind, hResult]
    rfl
  | ok a =>
    have hThen := hf a { e with pending := pendingAfter e.pending (l e.scope).lifted }
    simp only [Bind.bind, hResult]
    refine Eq.trans hThen ?_
    rw [pendingAfter, pendingAfter, pendingAfter, Entries.insertAll_append]

/-- A computation that begins with reading the scope. -/
theorem withScope {f : Scope → Encoding α} {l : Scope → Scope → Lifting α}
    (h : ∀ sc, (f sc).Agrees (l sc)) :
    (Encoding.scope >>= f).Agrees fun sc => l sc sc := by
  intro e
  exact h e.scope e

/-- The scope is put back, so that only the computation inside has another one. -/
theorem inScope {x : Encoding α} {l : Scope → Lifting α} (h : x.Agrees l) (change : Scope → Scope) :
    (Encoding.inScope change x).Agrees fun sc => l (change sc) := by
  intro e
  have hInside := h { e with scope := change e.scope }
  have hBack : (Encoding.inScope change x).run.run e =
      ((x.run.run { e with scope := change e.scope }).1,
        { (x.run.run { e with scope := change e.scope }).2 with scope := e.scope }) := rfl
  rw [hBack, hInside]

end Agrees

theorem liftedMap_agrees (name : String) (m : MapState) (next : Option String) (body : Workflow) :
    (liftedMap name m next body).Agrees fun sc => StepProgram.liftedMap sc name m next body :=
  fun _ => rfl

theorem map_agrees (name : String) (m : MapState) :
    (map name m).Agrees fun sc => mapSteps sc name m := by
  unfold map mapSteps
  cases m.body with
  | activity activity => exact .withScope fun sc => .ofExcept _
  | workflow body => exact liftedMap_agrees name m m.next body

mutual

theorem states_agrees (taken : List String) (ss : List (String × State)) :
    (states taken ss).Agrees fun sc => statesSteps sc taken ss := by
  cases ss with
  | nil =>
    simp only [states, statesSteps]
    exact .pure []
  | cons e rest =>
    obtain ⟨name, s⟩ := e
    simp only [states, statesSteps]
    refine (state_agrees name s).bind fun steps => ?_
    refine (Agrees.ofExcept _).bind fun taken' => ?_
    exact (states_agrees taken' rest).bind fun more => .pure (steps ++ more)

theorem state_agrees (name : String) (s : State) :
    (state name s).Agrees fun sc => stateSteps sc name s := by
  cases s with
  | task t => exact .withScope fun sc => .ofExcept _
  | «switch» s => exact .withScope fun sc => .pure _
  | map m => exact map_agrees name m
  | «repeat» r => exact .withScope fun sc => .ofExcept _
  | loop l => exact .withScope fun sc => .ofExcept _
  | parallel p =>
    obtain ⟨bs, next⟩ := p
    simp only [state, stateSteps]
    exact (branches_agrees name bs).bind fun steps => .withScope fun sc => .pure _

theorem branches_agrees (name : String) (bs : List Branch) :
    (branches name bs).Agrees fun sc => branchesSteps sc name bs := by
  cases bs with
  | nil =>
    simp only [branches, branchesSteps]
    exact .pure []
  | cons b rest =>
    simp only [branches, branchesSteps]
    have hBranch := fun sc : Scope =>
      (branch_agrees name b).inScope fun inner => inner.inBranch (sc.name (name ++ "_" ++ b.key))
    have hRest := fun sc : Scope => (hBranch sc).bind fun out =>
      (Agrees.ofExcept
        (wrapBranch sc name (sc.name (name ++ "_" ++ b.key)) b.workflow.root out.1 out.2)).bind
        fun program => (branches_agrees name rest).bind fun more => .pure (program :: more)
    exact Agrees.withScope hRest

theorem branch_agrees (name : String) (b : Branch) :
    (branch name b).Agrees fun sc => branchSteps sc name b := by
  obtain ⟨bname, root, ss⟩ := b
  simp only [branch, branchSteps]
  cases Entries.get? root ss with
  | none => exact .ofExcept _
  | some s =>
    cases s with
    | task t => exact (states_agrees reserved ss).bind fun steps => .pure _
    | map m =>
      dsimp only
      cases Branch.elementWorkflow ⟨bname, ⟨root, ss⟩⟩ with
      | some element => exact (liftedMap_agrees root m none element).bind fun steps => .pure _
      | none => exact (map_agrees root m).bind fun steps => .pure _
    | _ => exact .ofExcept _

end

/-- The document of a workflow. The name of its first step is made when the
states have been encoded. -/
def document (w : Workflow) : Encoding Json := do
  let steps ← states reserved w.states
  return toJson ((← scope).name w.root) steps

theorem document_agrees (w : Workflow) : (document w).Agrees fun sc => w.stepDocument sc := by
  simp only [document, Workflow.stepDocument, Workflow.stepProgram]
  exact (states_agrees reserved w.states).bind fun steps => .withScope fun sc => .pure _

end Encoding

/-! ## Histories -/

namespace Encoder

open Compiler (history keeping)

variable {resolver : Resolver} {id : String}

def fresh (resolver : Resolver) (id : String) : Encoder := ⟨.top resolver id, []⟩

def generate (e : Encoder) (w : Workflow) : Except CompileError String × Encoder :=
  (Encoding.document w >>= fun v => Encoding.ofExcept (Target.workflows.text v)).run.run e

/-- The documents of the bodies that wait, each made by an encoder of its own;
the scope is not used. -/
def generateMaps (e : Encoder) : Except CompileError (List (String × String)) × Encoder :=
  ((keeping e.scope.resolver e.scope.documentId e.pending).generateMaps.1, { e with pending := [] })

def perform (e : Encoder) : Compiler.Call → Encoder
  | .generate w => (e.generate w).2
  | .generateMaps => e.generateMaps.2

def after (e : Encoder) (calls : List Compiler.Call) : Encoder := calls.foldl perform e

theorem generate_top (pending : Entries Workflow) (w : Workflow) :
    generate ⟨.top resolver id, pending⟩ w = (((keeping resolver id pending).generate w).1,
      ⟨.top resolver id, ((keeping resolver id pending).generate w).2.steps.pending⟩) := by
  have hText := (Encoding.document_agrees w).bind fun v =>
    Encoding.Agrees.ofExcept (Target.workflows.text v)
  rw [generate, hText, Compiler.generate_keeping]
  cases hResult : (w.stepDocument (.top resolver id)).result with
  | error error =>
    simp only [Bind.bind, hResult]
    rfl
  | ok v =>
    simp only [Bind.bind, hResult, Lifting.ofExcept, List.append_nil]
    rfl

theorem perform_top (pending : Entries Workflow) (call : Compiler.Call) :
    perform ⟨.top resolver id, pending⟩ call =
      ⟨.top resolver id, ((keeping resolver id pending).perform call).steps.pending⟩ := by
  cases call with
  | generate w => rw [perform, generate_top, Compiler.perform]
  | generateMaps =>
    rw [Compiler.perform, Compiler.generateMaps_keeping]
    rfl

/-- After any calls an encoder has the scope that it began with, and keeps what a compiler keeps. -/
theorem after_top {pending : Entries Workflow} (hPending : pending.keys.Nodup)
    (calls : List Compiler.Call) :
    after ⟨.top resolver id, pending⟩ calls =
      ⟨.top resolver id, ((keeping resolver id pending).after calls).steps.pending⟩ := by
  induction calls generalizing pending with
  | nil => rfl
  | cons call rest ih =>
    obtain ⟨pending', hPending', hPerform⟩ := @Compiler.perform_keeping resolver id _ hPending call
    rw [after, List.foldl_cons, perform_top, Compiler.after, List.foldl_cons, hPerform]
    exact ih hPending'

/-- The document that a generator makes of a workflow, or its failure, does not depend on
the calls that came before, whether they failed or not. It is the same in place and with
the scope handed down. -/
theorem generate_after (resolver : Resolver) (id : String) (calls : List Compiler.Call)
    (w : Workflow) :
    (((fresh resolver id).after calls).generate w).1 = ((fresh resolver id).generate w).1 ∧
      ((history resolver id calls).generate w).1 =
        ((Compiler.fresh .workflows resolver id).generate w).1 ∧
      (fresh resolver id).after calls =
        ⟨.top resolver id, (history resolver id calls).steps.pending⟩ ∧
      ((fresh resolver id).after calls).generate w = (((history resolver id calls).generate w).1,
        ⟨.top resolver id, ((history resolver id calls).generate w).2.steps.pending⟩) := by
  have hAfter : (fresh resolver id).after calls =
      ⟨.top resolver id, (history resolver id calls).steps.pending⟩ :=
    @after_top resolver id [] List.nodup_nil calls
  obtain ⟨pending, -, hKept⟩ := @Compiler.after_keeping resolver id [] List.nodup_nil calls
  have hHistory : history resolver id calls = keeping resolver id pending := hKept
  have hSame : ((keeping resolver id pending).generate w).1 =
      ((keeping resolver id []).generate w).1 := by
    rw [Compiler.generate_keeping, Compiler.generate_keeping]
  rw [hAfter, hHistory]
  refine ⟨?_, hSame, rfl, generate_top pending w⟩
  calc (generate ⟨.top resolver id, pending⟩ w).1
      = ((keeping resolver id pending).generate w).1 := by rw [generate_top]
    _ = ((keeping resolver id []).generate w).1 := hSame
    _ = ((fresh resolver id).generate w).1 := by rw [fresh, generate_top]

end Encoder

end StepProgram

end Orchestration
