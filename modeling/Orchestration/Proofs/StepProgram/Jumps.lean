import Mathlib.Data.List.Range
import Orchestration.Proofs.StepProgram.Blocks
import Orchestration.Proofs.StepProgram.Lists

/-!
# Where jumps land

Steps jump by name, and names are looked up in the list that a step stands in. Names of states
become names of steps by replacing characters, with the slot of the branch before them, beside
names that no state has.

* `Block`: the steps of a state are entered at the first, and left by the jumps of the last only.
* `Section` is a scope and the states that are encoded in it, those of a document or those of a
  branch. A list is `Section.LaidOut` for it if it has their blocks between a step that jumps to
  the root and the end step.
* `Workflow.jumps_land`: each list of steps in the documents of a valid workflow is laid out for a
  section or has no jumps. Each jump names one step of its list: the first one of the encoding of
  the successor, or the end step if there is no successor.
-/

namespace Orchestration

/-! ## Jumps -/

/-- Where a step goes on to instead of the step below it. -/
def Step.next? : Step → Option String
  | .assign _ next => next
  | .switch _ next | .goto next => some next
  | .post _ _ _ | .runMap _ _ _ | .forEach _ _ _ | .forPositions _ _ _ | .parallelFor _ _ _ _ _ _
  | .parallel _ _ | .when _ _ | .ret _ => none

/-- The names that a step may go on to: those of its conditions, then its own. -/
def Step.jumps : Step → List String
  | .switch conditions next => conditions.map Condition.next ++ [next]
  | s => s.next?.toList

/-- The fields `next` of the conditions of a step, then its own. -/
def Json.nexts (v : Json) : List Json :=
  (((v.field? "switch").bind items?).getD []).filterMap (field? "next") ++ (v.field? "next").toList

theorem Step.nexts_toJson (s : Step) : s.toJson.nexts = s.jumps.map Json.str := by
  cases s with
  | assign writes next => cases next <;> rfl
  | «switch» conditions next =>
    have hConditions : (conditions.map Condition.toJson).filterMap (Json.field? "next") =
        conditions.map fun c => Json.str c.next := by
      induction conditions with
      | nil => rfl
      | cons c rest ih =>
        rw [List.map_cons, List.filterMap_cons, ih]
        rfl
    simp only [Step.toJson, Step.jumps, List.map_append, List.map_map, Function.comp_def]
    rw [← hConditions]
    rfl
  | _ => rfl

/-- The successors of a state, a missing one included, in the order of the jumps to them. -/
def State.successors : State → List (Option String)
  | .switch s => s.cases.map (fun c => some c.next) ++ [s.default]
  | s => [s.next?]

theorem State.mem_targets_of_mem_successors {s : State} {t : String} (h : some t ∈ s.successors) :
    t ∈ s.targets := by
  cases s with
  | «switch» s =>
    rcases List.mem_append.mp h with hCase | hDefault
    · obtain ⟨c, hc, hNext⟩ := List.mem_map.mp hCase
      cases hNext
      exact List.mem_append_left _ (List.mem_map_of_mem hc)
    · refine List.mem_append_right _ ?_
      rw [← List.mem_singleton.mp hDefault]
      exact List.mem_singleton_self t
  | _ => exact Option.mem_toList.mpr (List.mem_singleton.mp h).symm

def State.branches : State → List Branch
  | .parallel p => p.branches
  | _ => []

namespace StepProgram

/-- No step has a jump. -/
def Straight (p : StepProgram) : Prop := ∀ step ∈ p, step.2.jumps = []

@[simp] theorem straight_nil : Straight [] := by
  simp [Straight]

@[simp] theorem straight_cons {name : String} {s : Step} {p : StepProgram} :
    Straight ((name, s) :: p) ↔ s.jumps = [] ∧ Straight p :=
  List.forall_mem_cons

/-! ## Blocks -/

/-- Steps that begin with the one of this name. Only the last one jumps out, to these exits, and it
never goes on to the step below it. -/
structure Block (p : StepProgram) (start : String) (exits : List String) : Prop where
  starts : ∃ step rest, p = (start, step) :: rest
  leaves : ∃ front last, p = front ++ [last] ∧ last.2.next?.isSome ∧ last.2.jumps = exits ∧
    ∀ step ∈ front, ∀ t ∈ step.2.jumps, t ∈ Entries.keys p

namespace Block

variable {p q : StepProgram} {start mid : String} {exits : List String}

theorem mem_keys (h : Block p start exits) : start ∈ Entries.keys p := by
  obtain ⟨step, rest, rfl⟩ := h.starts
  exact List.mem_cons_self

/-- All jumps but the exits stay among the steps. -/
theorem jumps (h : Block p start exits) {step : String × Step} (hStep : step ∈ p) {t : String}
    (ht : t ∈ step.2.jumps) : t ∈ exits ∨ t ∈ Entries.keys p := by
  obtain ⟨front, last, rfl, -, rfl, hFront⟩ := h.leaves
  rcases List.mem_append.mp hStep with hMem | hMem
  · exact .inr (hFront step hMem t ht)
  · obtain rfl := List.mem_singleton.mp hMem
    exact .inl ht

/-- Two blocks, of which the first one leaves to the start of the second. -/
theorem append (hp : Block p start [mid]) (hq : Block q mid exits) :
    Block (p ++ q) start exits := by
  obtain ⟨front, last, hLast, hNext, hExits, hFront⟩ := hq.leaves
  constructor
  · obtain ⟨step, rest, rfl⟩ := hp.starts
    exact ⟨step, rest ++ q, rfl⟩
  · have hKeys : Entries.keys (p ++ q) = Entries.keys p ++ Entries.keys q := List.map_append
    refine ⟨p ++ front,
      last, by rw [hLast, List.append_assoc], hNext, hExits, fun step hStep t ht => ?_⟩
    rw [hKeys, List.mem_append]
    rcases List.mem_append.mp hStep with hFirst | hSecond
    · rcases hp.jumps hFirst ht with hMid | hOwn
      · rw [List.mem_singleton.mp hMid]
        exact .inr hq.mem_keys
      · exact .inl hOwn
    · exact .inr (hFront step hSecond t ht)

end Block

variable {sc : Scope} {lifted : List (String × Workflow)}

/-! ## The blocks of states without branches -/

theorem taskSteps_block {name : String} {t : TaskState} {p : StepProgram}
    (h : taskSteps sc name t = .ok p) :
    Block p (sc.name name) [sc.next t.next] ∧ innerLists p = [] := by
  obtain ⟨url, -, rfl⟩ := taskSteps_eq_ok_iff.mp h
  refine ⟨⟨⟨_, _, rfl⟩, [_], _, rfl, rfl, rfl, ?_⟩, rfl⟩
  simp [Step.jumps, Step.next?]

/-- Tasks that each go on to the one below: the last one leaves the chain. -/
theorem chainSteps_block {tasks : List (String × TaskState)} {first last : String × TaskState}
    {p : StepProgram} (h : chainSteps sc tasks = .ok p) (hFirst : tasks.head? = some first)
    (hLast : tasks.getLast? = some last) (hLinked : tasks.IsChain fun a b => a.2.next = some b.1) :
    Block p (sc.name first.1) [sc.next last.2.next] ∧ innerLists p = [] := by
  induction tasks generalizing first p with
  | nil => cases hFirst
  | cons task rest ih =>
    obtain ⟨name, t⟩ := task
    cases hFirst
    obtain ⟨steps, hSteps, more, hMore, rfl⟩ := chainSteps_cons_eq_ok_iff.mp h
    obtain ⟨hTask, hTaskLists⟩ := taskSteps_block hSteps
    cases rest with
    | nil =>
      cases hMore
      cases hLast
      rw [List.append_nil]
      exact ⟨hTask, hTaskLists⟩
    | cons second rest =>
      -- The task leaves to the one below it, where the block of the rest of the chain starts.
      obtain ⟨hNext, hRestLinked⟩ := List.isChain_cons_cons.mp hLinked
      rw [List.getLast?_cons_cons] at hLast
      obtain ⟨hRest, hRestLists⟩ := ih hMore rfl hLast hRestLinked
      rw [hNext] at hTask
      refine ⟨hTask.append hRest, ?_⟩
      rw [innerLists_append, hTaskLists, hRestLists, List.append_nil]

/-- The calls of a repeat. -/
theorem unrolled_block {name : String} {r : RepeatState} {p : StepProgram} (hCount : r.count ≠ 0)
    (h : chainSteps sc (r.unrolled name) = .ok p) :
    Block p (sc.name name) [sc.next r.next] ∧ innerLists p = [] := by
  have hFirst : (r.unrolled name).head? = some (name, r.unrolledTask name 0) := by
    rw [RepeatState.unrolled, List.head?_map, List.head?_range, if_neg hCount]
    rfl
  have hLast : (r.unrolled name).getLast? =
      some (unrolledName name (r.count - 1), ⟨r.activity, r.next⟩) := by
    rw [RepeatState.unrolled, List.getLast?_map, List.getLast?_range, if_neg hCount,
      Option.map_some, RepeatState.unrolledTask, if_neg (by omega)]
  have hLinked : (r.unrolled name).IsChain fun a b => a.2.next = some b.1 := by
    rw [RepeatState.unrolled, List.isChain_map, List.isChain_range]
    intro i hi
    rw [RepeatState.unrolledTask, if_pos (by omega)]
  obtain ⟨hBlock, hLists⟩ := chainSteps_block h hFirst hLast hLinked
  exact ⟨hBlock, hLists⟩

theorem loopSteps_block {name : String} {l : LoopState} {p : StepProgram}
    (h : loopSteps sc name l = .ok p) :
    Block p (sc.name name) [sc.next l.next] ∧ ∀ list ∈ innerLists p, Straight list := by
  obtain ⟨url, -, rfl⟩ := loopSteps_eq_ok_iff.mp h
  refine ⟨⟨⟨_, _, rfl⟩, [_], _, rfl, rfl, rfl, ?_⟩, ?_⟩
  · simp [Step.jumps, Step.next?]
  · simp [Step.jumps, Step.next?]

theorem mapSteps_block {name : String} {m : MapState} {p : StepProgram}
    (h : mapSteps sc name m = ⟨lifted, .ok p⟩) :
    Block p (sc.name name) [sc.next m.next] ∧ ∀ list ∈ innerLists p, Straight list := by
  rcases mapSteps_eq_ok h with ⟨activity, -, -, hInline⟩ | ⟨body, -, hLifted⟩
  · obtain ⟨url, -, rfl⟩ := inlineMap_eq_ok_iff.mp hInline
    refine ⟨⟨⟨_, _, rfl⟩, [_, _, _], _, rfl, rfl, rfl, ?_⟩, ?_⟩
    · simp [Step.jumps, Step.next?]
    · simp [Step.jumps, Step.next?]
  · obtain ⟨-, rfl⟩ := liftedMap_eq_ok_iff.mp hLifted
    refine ⟨⟨⟨_, _, rfl⟩, [_, _, _], _, rfl, rfl, rfl, ?_⟩, ?_⟩
    · simp [Step.jumps, Step.next?]
    · simp [Step.jumps, Step.next?]

theorem switchSteps_block (sc : Scope) (name : String) (s : SwitchState) :
    Block (switchSteps sc name s) (sc.name name) ((State.switch s).successors.map sc.next) := by
  refine ⟨⟨_, _, rfl⟩, [], _, rfl, rfl, ?_, by simp⟩
  simp only [Step.jumps, State.successors, List.map_append, List.map_map, Function.comp_def]
  rfl

theorem stateSteps_block {name : String} {s : State} {p : StepProgram} (hKind : s.kind ≠ .parallel)
    (hValid : s.validate name = .ok ()) (h : stateSteps sc name s = ⟨lifted, .ok p⟩) :
    Block p (sc.name name) (s.successors.map sc.next) ∧ ∀ list ∈ innerLists p, Straight list := by
  cases s with
  | task t =>
    obtain ⟨hBlock, hLists⟩ := taskSteps_block (Lifting.ofExcept_eq_ok_iff.mp h).2
    exact ⟨hBlock, by simp [hLists]⟩
  | «switch» s =>
    obtain ⟨-, rfl⟩ := Lifting.pure_eq_ok_iff.mp h
    exact ⟨switchSteps_block sc name s, by simp [switchSteps]⟩
  | map m => exact mapSteps_block h
  | «repeat» r =>
    have hCount := State.validate_repeat_eq_ok_iff.mp hValid
    obtain ⟨hBlock, hLists⟩ := unrolled_block hCount (Lifting.ofExcept_eq_ok_iff.mp h).2
    exact ⟨hBlock, by simp [hLists]⟩
  | loop l => exact loopSteps_block (Lifting.ofExcept_eq_ok_iff.mp h).2
  | parallel p => exact absurd rfl hKind

/-! ## Sections -/

/-- The steps are the encoding of the state, and jump to the successors of the state only. -/
structure Encodes (sc : Scope) (name : String) (s : State) (p : StepProgram) : Prop where
  encoded : ∃ lifted, stateSteps sc name s = ⟨lifted, .ok p⟩
  block : Block p (sc.name name) (s.successors.map sc.next)

/-- States that are encoded side by side. -/
structure Section where
  scope : Scope
  workflow : Workflow

namespace Section

/-- The states of a document. -/
def ofDocument (resolver : Resolver) (site : String × Workflow) : Section :=
  ⟨.top resolver site.1, site.2⟩

/-- The states that stand in a branch of a state. -/
def ofBranch (sc : Scope) (name : String) (b : Branch) : Section :=
  ⟨sc.inBranch (slotOf sc name b), ⟨b.workflow.root, b.standing⟩⟩

/-- The section itself, those of the branches of its states, and so on inwards. -/
inductive Contains : Section → Section → Prop
  | refl (sec : Section) : sec.Contains sec
  | branch {outer sec : Section} {name : String} {s : State} {b : Branch}
    (hInside : outer.Contains sec) (hState : (name, s) ∈ sec.workflow.states)
    (hBranch : b ∈ s.branches) :
    outer.Contains (ofBranch sec.scope name b)

theorem Contains.trans {outer mid sec : Section} (h : outer.Contains mid) (h' : mid.Contains sec) :
    outer.Contains sec := by
  induction h' with
  | refl => exact h
  | branch _ hState hBranch ih => exact .branch ih hState hBranch

/-- What stands in a valid branch is valid: a map that stands alone goes on to no other state. -/
theorem validate_ofBranch {sc : Scope} {name : String} {b : Branch} (h : b.validate name = .ok ()) :
    (ofBranch sc name b).workflow.validate = .ok () := by
  have hWorkflow := (Branch.validate_eq_ok_iff.mp h).1
  have hRoots := Branch.rootState?_of_validate h
  show Workflow.validate ⟨b.workflow.root, b.standing⟩ = .ok ()
  obtain ⟨bname, root, states⟩ := b
  rcases hRoots with ⟨t, hRoot⟩ | ⟨m, activity, hRoot, hBody⟩
  · have hGet : Entries.get? root states = some (.task t) := hRoot
    rw [Branch.standing, hGet]
    exact hWorkflow
  · have hGet : Entries.get? root states = some (.map m) := hRoot
    have hOwn := ((Workflow.validate_eq_ok_iff.mp hWorkflow).2 _ _ (Workflow.mem_states hRoot)).2
    rw [Branch.standing, hGet]
    -- The states after the map are those of the workflow of its elements, if there are any.
    cases hElement : Branch.elementWorkflow ⟨bname, ⟨root, states⟩⟩ with
    | some element =>
      have hInside := Branch.validate_elementWorkflow hWorkflow hElement
      have hLimit := (State.validate_map_eq_ok_iff.mp hOwn).1
      refine Workflow.validate_eq_ok_iff.mpr ⟨List.mem_cons_self, fun n s hMem => ?_⟩
      cases List.mem_singleton.mp hMem
      exact ⟨by simp [State.targets, State.next?],
        State.validate_map_eq_ok_iff.mpr ⟨hLimit, hInside⟩⟩
    | none =>
      have hLast : m.next = none := by
        cases hNext : m.next with
        | none => rfl
        | some next =>
          simp [Branch.elementWorkflow, Branch.elementTask?, hRoot, hNext, hBody] at hElement
      refine Workflow.validate_eq_ok_iff.mpr ⟨List.mem_cons_self, fun n s hMem => ?_⟩
      cases List.mem_singleton.mp hMem
      exact ⟨by simp [State.targets, State.next?, hLast], hOwn⟩

/-! ## Lists that are laid out for sections -/

/-- A list of steps with the blocks of all states of a section, between its first
step and its last ones. -/
structure LaidOut (sec : Section) (list : StepProgram) : Prop where
  /-- No two steps have one name. -/
  nodup : (Entries.keys list).Nodup
  parts : ∃ start writes blocks last,
    list = (start, .assign writes (some (sec.scope.name sec.workflow.root))) ::
      (List.flatten blocks ++ last) ∧
      List.Forall₂ (fun e => Encodes sec.scope e.1 e.2) sec.workflow.states blocks ∧
      (∃ step rest, last = (sec.scope.endStep, step) :: rest) ∧ Straight last

/-- Where the jump for a successor lands: at the encoding of that state, or at the end step if there
is no successor, after which there are no more jumps. -/
def LandsAt (sec : Section) (list : StepProgram) : Option String → Prop
  | some t => ∃ s block rest, (t, s) ∈ sec.workflow.states ∧ Encodes sec.scope t s block ∧
    list.stepsFrom (sec.scope.name t) = block ++ rest
  | none => ∃ step rest, list.stepsFrom sec.scope.endStep = (sec.scope.endStep, step) :: rest ∧
    Straight ((sec.scope.endStep, step) :: rest)

/-- A list that is laid out for a section, in which all jumps land. -/
structure JumpsLand (sec : Section) (list : StepProgram) : Prop where
  laidOut : sec.LaidOut list
  root : sec.LandsAt list (some sec.workflow.root)
  successors : ∀ name s, (name, s) ∈ sec.workflow.states → ∀ next ∈ s.successors,
    sec.LandsAt list next
  unique : ∀ step ∈ list, ∀ t ∈ step.2.jumps, (Entries.keys list).count t = 1

namespace LaidOut

variable {sec : Section} {list : StepProgram}

/-- Each state has its encoding where jumps to it lead. -/
theorem landsAt_some (h : sec.LaidOut list) {t : String}
    (ht : t ∈ Entries.keys sec.workflow.states) :
    sec.LandsAt list (some t) := by
  obtain ⟨start, writes, blocks, last, hList, hBlocks, -, -⟩ := h.parts
  obtain ⟨⟨t, s⟩, hMem, rfl⟩ := List.mem_map.mp ht
  obtain ⟨block, hBlock, hEncodes⟩ := exists_of_forall₂ hBlocks hMem
  obtain ⟨step, more, rfl⟩ := hEncodes.block.starts
  have hInfix : (sec.scope.name t, step) :: more <:+: list := by
    obtain ⟨before, after, hSplit⟩ := List.append_of_mem hBlock
    refine ⟨(start, .assign writes (some (sec.scope.name sec.workflow.root))) ::
      List.flatten before, List.flatten after ++ last, ?_⟩
    rw [hList, hSplit]
    simp
  obtain ⟨rest, hFrom⟩ := stepsFrom_of_infix h.nodup hInfix
  exact ⟨s, _, rest, hMem, hEncodes, hFrom⟩

theorem landsAt_none (h : sec.LaidOut list) : sec.LandsAt list none := by
  obtain ⟨start, writes, blocks, last, hList, -, ⟨step, rest, rfl⟩, hStraight⟩ := h.parts
  have hSuffix : (sec.scope.endStep, step) :: rest <:+ list := by
    rw [hList, ← List.cons_append]
    exact List.suffix_append _ _
  exact ⟨step, rest, stepsFrom_of_suffix h.nodup hSuffix, hStraight⟩

theorem landsAt (h : sec.LaidOut list) {next : Option String}
    (hNext : ∀ t ∈ next, t ∈ Entries.keys sec.workflow.states) : sec.LandsAt list next := by
  cases next with
  | none => exact h.landsAt_none
  | some t => exact h.landsAt_some (hNext t rfl)

theorem mem_keys_of_landsAt {next : Option String} (h : sec.LandsAt list next) :
    sec.scope.next next ∈ Entries.keys list := by
  have hName : ∀ {name : String} {step : Step} {rest : StepProgram},
      list.stepsFrom name = (name, step) :: rest → name ∈ Entries.keys list := by
    intro name step rest hFrom
    have hSuffix : list.stepsFrom name <:+ list := List.dropWhile_suffix _
    rw [hFrom] at hSuffix
    exact List.mem_map_of_mem (f := Prod.fst) (hSuffix.subset List.mem_cons_self)
  cases next with
  | none =>
    obtain ⟨step, rest, hFrom, -⟩ := h
    exact hName hFrom
  | some t =>
    obtain ⟨s, block, rest, -, hEncodes, hFrom⟩ := h
    obtain ⟨step, more, rfl⟩ := hEncodes.block.starts
    exact hName hFrom

/-- In a list that is laid out for a valid section all jumps land. -/
theorem jumpsLand (h : sec.LaidOut list) (hValid : sec.workflow.validate = .ok ()) :
    sec.JumpsLand list := by
  obtain ⟨hRoot, hStates⟩ := Workflow.validate_eq_ok_iff.mp hValid
  have hFirst : sec.LandsAt list (some sec.workflow.root) := h.landsAt_some hRoot
  have hSuccessors : ∀ name s, (name, s) ∈ sec.workflow.states → ∀ next ∈ s.successors,
      sec.LandsAt list next := by
    intro name s hMem next hNext
    refine h.landsAt fun t ht => ?_
    cases ht
    exact (hStates name s hMem).1 t (State.mem_targets_of_mem_successors hNext)
  refine ⟨h, hFirst, hSuccessors, fun step hStep t ht => List.count_eq_one_of_mem h.nodup ?_⟩
  obtain ⟨start, writes, blocks, last, hList, hBlocks, -, hStraight⟩ := h.parts
  rw [hList] at hStep
  -- The jump is that of the first step, one of a block, or one of the last steps, which have none.
  rcases List.mem_cons.mp hStep with rfl | hRest
  · rw [List.mem_singleton.mp ht]
    exact mem_keys_of_landsAt hFirst
  rcases List.mem_append.mp hRest with hBlock | hLast
  · obtain ⟨block, hMem, hOwn⟩ := List.mem_flatten.mp hBlock
    obtain ⟨e, he, hEncodes⟩ := exists_of_forall₂ hBlocks.flip hMem
    rcases hEncodes.block.jumps hOwn ht with hExit | hInside
    · obtain ⟨next, hNext, rfl⟩ := List.mem_map.mp hExit
      exact mem_keys_of_landsAt (hSuccessors e.1 e.2 he next hNext)
    · obtain ⟨target, hTarget, rfl⟩ := List.mem_map.mp hInside
      apply List.mem_map_of_mem
      rw [hList]
      exact List.mem_cons_of_mem _
        (List.mem_append_left _ (List.mem_flatten.mpr ⟨block, hMem, hTarget⟩))
  · rw [hStraight step hLast] at ht
    cases ht

end LaidOut

/-! ## Encodings are laid out -/

/-- The list has no jumps, or is laid out for this section or one inside it. -/
def Lays (sec : Section) (list : StepProgram) : Prop :=
  Straight list ∨ ∃ inside, sec.Contains inside ∧ inside.LaidOut list

end Section

/-- If the state is valid, the steps are its encoding, and the lists inside them are
laid out in its branches. -/
def LaysBranches (sc : Scope) (name : String) (s : State) (p : StepProgram) : Prop :=
  s.validate name = .ok () → Encodes sc name s p ∧
    ∀ list ∈ innerLists p, Straight list ∨ ∃ b ∈ s.branches, (Section.ofBranch sc name b).Lays list

/-- The list with the blocks of a valid section, and the lists inside them. -/
theorem Section.lays_of_blocks {sec : Section} (hValid : sec.workflow.validate = .ok ())
    {start : String} {writes : List (Place × Template)} {blocks : List StepProgram}
    {last : StepProgram} {list : StepProgram}
    (hList : list = (start, .assign writes (some (sec.scope.name sec.workflow.root))) ::
      (List.flatten blocks ++ last))
    (hNodup : (Entries.keys list).Nodup)
    (hBlocks : List.Forall₂ (fun e => LaysBranches sec.scope e.1 e.2) sec.workflow.states blocks)
    (hEnd : ∃ step rest, last = (sec.scope.endStep, step) :: rest)
    (hLast : ∀ l ∈ last.lists, Straight l) :
    sec.LaidOut list ∧ ∀ l ∈ innerLists list, sec.Lays l := by
  obtain ⟨-, hStates⟩ := Workflow.validate_eq_ok_iff.mp hValid
  have hEach :
      List.Forall₂ (fun e block => Encodes sec.scope e.1 e.2 block ∧ ∀ l ∈ innerLists block,
        Straight l ∨ ∃ b ∈ e.2.branches, (Section.ofBranch sec.scope e.1 b).Lays l)
          sec.workflow.states blocks := by
    have hOk : ∀ e ∈ sec.workflow.states, e.2.validate e.1 = .ok () :=
      fun e he => (hStates e.1 e.2 he).2
    exact (List.forall₂_and_left _ _).mpr ⟨hOk, hBlocks⟩ |>.imp fun e block h => h.2 h.1
  constructor
  · have hEncodes := hEach.imp fun e block h => h.1
    exact ⟨hNodup, start, writes, blocks, last, hList, hEncodes, hEnd,
      hLast last List.mem_cons_self⟩
  · intro l hl
    rw [hList, innerLists, Step.lists, List.nil_append, innerLists_append, innerLists_flatten] at hl
    rcases List.mem_append.mp hl with hBlock | hOther
    · obtain ⟨block, hMem, hInner⟩ := List.mem_flatMap.mp hBlock
      obtain ⟨e, he, -, hLists⟩ := exists_of_forall₂ hEach.flip hMem
      rcases hLists l hInner with hStraight | ⟨b, hb, hStraight | ⟨inside, hInside, hLaidOut⟩⟩
      · exact .inl hStraight
      · exact .inl hStraight
      · exact .inr ⟨inside, (Contains.branch (.refl sec) he hb).trans hInside, hLaidOut⟩
    · exact .inl (hLast l (List.mem_cons_of_mem _ hOther))

theorem straight_finishSteps (slot payloadVar : String) (array : Option String) :
    ∀ list ∈ (finishSteps slot payloadVar array).lists, Straight list := by
  cases array <;> simp [finishSteps, lists, Step.jumps, Step.next?]

/-- Names with others before and after them. -/
theorem nodup_around {name : String} {names last : List String} (hNames : names.Nodup)
    (hEnds : (name :: last).Nodup) (hFree : ∀ n ∈ names, n ∉ name :: last) :
    (name :: (names ++ last)).Nodup := by
  have hMiddle : (name :: (names ++ last)).Perm (names ++ name :: last) := List.perm_middle.symm
  rw [hMiddle.nodup_iff, List.nodup_append']
  exact ⟨hNames, hEnds, fun n hn hEnd => hFree n hn hEnd⟩

/-- The steps of a branch have names of their own. -/
theorem nodup_keys_wrapBranch {state slot root : String} {steps : StepProgram}
    {array : Option String} {program : String × StepProgram}
    (h : wrapBranch sc state slot root steps array = .ok program)
    (hSteps : (Entries.keys steps).Nodup) : (Entries.keys program.2).Nodup := by
  obtain ⟨hFree, rfl⟩ := wrapBranch_eq_ok_iff.mp h
  have hEnds : List.Sublist
      ((slot ++ "_start") :: Entries.keys (finishSteps slot (sc.inBranch slot).payloadVar array))
      (branchReserved slot) := by
    cases array with
    | none => exact List.take_sublist 2 (branchReserved slot)
    | some array => exact .refl _
  have hReserved : (branchReserved slot).Nodup := by
    simp [branchReserved]
  have hKeys : Entries.keys (steps ++ finishSteps slot (sc.inBranch slot).payloadVar array) =
      Entries.keys steps ++ Entries.keys (finishSteps slot (sc.inBranch slot).payloadVar array) :=
    List.map_append
  rw [Entries.keys_cons, hKeys]
  exact nodup_around hSteps (hReserved.sublist hEnds) fun n hn hEnd =>
    hFree n hn (hEnds.subset hEnd)

theorem aroundBlocks_lays {name : String} {b : Branch} {program : String × StepProgram}
    (h : AroundBlocks LaysBranches sc name b program) (hValid : b.validate name = .ok ()) :
    ∀ list ∈ program.2.lists, (Section.ofBranch sc name b).Lays list := by
  obtain ⟨blocks, array, hNodup, hWrap, hBlocks⟩ := h
  have hKeys := nodup_keys_wrapBranch hWrap hNodup
  obtain ⟨-, rfl⟩ := wrapBranch_eq_ok_iff.mp hWrap
  have hEnd : ∃ step rest,
      finishSteps (slotOf sc name b) (sc.inBranch (slotOf sc name b)).payloadVar array =
      ((Section.ofBranch sc name b).scope.endStep, step) :: rest := by
    cases array <;> exact ⟨_, _, rfl⟩
  obtain ⟨hLaidOut, hInner⟩ :=
    Section.lays_of_blocks (Section.validate_ofBranch hValid) rfl hKeys hBlocks
      hEnd (straight_finishSteps _ _ _)
  exact List.forall_mem_cons.mpr ⟨.inr ⟨_, .refl _, hLaidOut⟩, hInner⟩

theorem keptByEncoding_laysBranches : KeptByEncoding LaysBranches := by
  refine ⟨fun {sc name s lifted p} hKind h hValid => ?_,
    fun {sc name branches next programs lifted} hSteps hPrograms hValid => ?_⟩
  · obtain ⟨hBlock, hLists⟩ := stateSteps_block hKind hValid h
    exact ⟨⟨⟨lifted, h⟩, hBlock⟩, fun list hList => .inl (hLists list hList)⟩
  · have hBranches := (State.validate_parallel_eq_ok_iff.mp hValid).2.1
    refine ⟨⟨⟨lifted, hSteps⟩, ⟨_, _, rfl⟩, [_, _], _, rfl, rfl, rfl, ?_⟩, ?_⟩
    · simp [Step.jumps, Step.next?]
    · have hLists : innerLists (parallelSteps sc name ⟨branches, next⟩ programs) =
          branchesLists programs := by
        simp [parallelSteps]
      rw [hLists, forall_mem_branchesLists]
      intro program hMem list hList
      obtain ⟨b, hb, hAround⟩ := exists_of_forall₂ hPrograms.flip hMem
      exact .inr ⟨b, hb, aroundBlocks_lays hAround (hBranches b hb) list hList⟩

/-- The list of a document, and the lists inside it. -/
theorem mainSteps_lays {resolver : Resolver} {site : String × Workflow} {p : StepProgram}
    (hValid : site.2.validate = .ok ())
    (h : site.2.stepProgram (.top resolver site.1) = ⟨lifted, .ok p⟩) :
    (Section.ofDocument resolver site).LaidOut (mainSteps (ident site.2.root) p) ∧
      ∀ list ∈ innerLists (mainSteps (ident site.2.root) p),
      (Section.ofDocument resolver site).Lays list := by
  obtain ⟨hNodup, hFree, -⟩ := statesSteps_eq_ok h
  obtain ⟨blocks, rfl, hBlocks⟩ := statesSteps_blocks keptByEncoding_laysBranches h
  have hKeys : Entries.keys (mainSteps (ident site.2.root) (List.flatten blocks)) =
      mainStart :: (Entries.keys (List.flatten blocks) ++ [mainEnd]) := by
    simp [mainSteps, Entries.keys]
  have hNames : (Entries.keys (mainSteps (ident site.2.root) (List.flatten blocks))).Nodup := by
    rw [hKeys]
    exact nodup_around hNodup (by decide) hFree
  have hLast : ∀ list ∈ StepProgram.lists [(mainEnd, .ret (.read (.var mainPayload)))],
      Straight list := by
    simp [lists, Step.jumps, Step.next?]
  have hSection : (Section.ofDocument resolver site).workflow.validate = .ok () := hValid
  exact Section.lays_of_blocks hSection rfl hNames hBlocks ⟨_, _, rfl⟩ hLast

/-- A section inside a valid one is valid. -/
theorem Section.Contains.validate {outer sec : Section} (h : outer.Contains sec)
    (hValid : outer.workflow.validate = .ok ()) : sec.workflow.validate = .ok () := by
  induction h with
  | refl => exact hValid
  | @branch sec name s b _ hState hBranch ih =>
    have hOwn := ((Workflow.validate_eq_ok_iff.mp ih).2 name s hState).2
    cases s with
    | parallel p =>
      exact validate_ofBranch ((State.validate_parallel_eq_ok_iff.mp hOwn).2.1 b hBranch)
    | _ => cases hBranch

end StepProgram

namespace Workflow

open StepProgram

/-- Every jump in the documents of a valid workflow, its own and those of the bodies lifted from
it, names one step of the list that it stands in. A list with jumps is that of a document or of a
branch inside it. Jumps to states land at their encodings, and jumps for missing successors at
the end step. The last step of each encoding has a jump of its own, so that no state falls
through into another. -/
theorem jumps_land {resolver : Resolver} {id : String} {w : Workflow} {doc : Json} {g : Generator}
    {docs : List (String × Json)} (hValid : w.validate = .ok ())
    (hDoc : (Generator.fresh resolver id).document w = (.ok doc, g))
    (hDocs : g.drain.1 = .ok docs) :
    ∀ d ∈ (id, doc) :: docs, ∃ site ∈ (id, w) :: w.liftedMaps resolver id, d.1 = site.1 ∧
      ∃ main, d.2 = mainDocument main ∧ (Section.ofDocument resolver site).JumpsLand main ∧
        ∀ l ∈ d.2.stepLists, ∃ list, l = stepsToJson list ∧
          (∀ step ∈ list, ∀ v ∈ step.2.toJson.nexts, ∃ t, v = .str t ∧
            (Entries.keys list).count t = 1) ∧
          (Straight list ∨ ∃ sec, (Section.ofDocument resolver site).Contains sec ∧
            sec.JumpsLand list) := by
  intro d hd
  obtain ⟨site, hSite, hId, lifted, p, hProgram, hJson⟩ := programs_of_documents hDoc hDocs d hd
  have hSiteValid : site.2.validate = .ok () := by
    rcases List.mem_cons.mp hSite with rfl | hLifted
    · exact hValid
    · exact (reaches_of_mem_liftedMaps hLifted).validate hValid
  obtain ⟨hLaidOut, hInner⟩ := mainSteps_lays hSiteValid hProgram
  refine ⟨site, hSite, hId, _, hJson, hLaidOut.jumpsLand hSiteValid, ?_⟩
  rw [hJson]
  refine forall_stepLists_mainDocument ⟨[], rfl, by simp⟩ fun list hList => ⟨list, rfl, ?_⟩
  have hLays : (Section.ofDocument resolver site).Lays list := by
    rcases List.mem_cons.mp hList with rfl | hInside
    · exact .inr ⟨_, .refl _, hLaidOut⟩
    · exact hInner list hInside
  rcases hLays with hStraight | ⟨sec, hContains, hOwn⟩
  · refine ⟨fun step hStep v hv => ?_, .inl hStraight⟩
    rw [Step.nexts_toJson, hStraight step hStep] at hv
    cases hv
  · have hLands := hOwn.jumpsLand (hContains.validate hSiteValid)
    refine ⟨fun step hStep v hv => ?_, .inr ⟨sec, hContains, hLands⟩⟩
    rw [Step.nexts_toJson] at hv
    obtain ⟨t, ht, rfl⟩ := List.mem_map.mp hv
    exact ⟨t, rfl, hLands.unique step hStep t ht⟩

/-- The documents of a workflow with a parallel state and of the bodies of two maps in it. -/
theorem jumps_land_besideBranch :
    (besideBranch "n").validate = .ok () ∧ ∃ doc g docs,
      (Generator.fresh threeAddresses "flow").document (besideBranch "n") = (.ok doc, g) ∧
        g.drain.1 = .ok docs ∧ ∀ d ∈ ("flow", doc) :: docs, ∀ l ∈ d.2.stepLists,
          ∃ list, l = stepsToJson list ∧ ∀ step ∈ list, ∀ v ∈ step.2.toJson.nexts,
            ∃ t, v = .str t ∧ (Entries.keys list).count t = 1 := by
  obtain ⟨doc, g, docs, hDoc, hDocs⟩ : ∃ doc g docs,
      (Generator.fresh threeAddresses "flow").document (besideBranch "n") = (.ok doc, g) ∧
        g.drain.1 = .ok docs := ⟨_, _, _, rfl, rfl⟩
  refine ⟨rfl, doc, g, docs, hDoc, hDocs, fun d hd l hl => ?_⟩
  obtain ⟨site, -, -, main, -, -, hLists⟩ := jumps_land rfl hDoc hDocs d hd
  obtain ⟨list, hList, hNexts, -⟩ := hLists l hl
  exact ⟨list, hList, hNexts⟩

end Workflow

end Orchestration
