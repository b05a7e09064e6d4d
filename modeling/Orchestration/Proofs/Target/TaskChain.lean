import Mathlib.Data.List.Nodup
import Orchestration.Proofs.Json.Reading
import Orchestration.Proofs.Run.Scheduling
import Orchestration.Proofs.Target.Addresses
import Orchestration.Proofs.Workflow.Soundness
import Orchestration.Target.Compiler

/-!
# Chains of tasks as functions

An orchestrator function makes the calls of a workflow of tasks one by one. There is one for a
valid workflow if all its states are tasks and none is met twice, and then its calls are those
of a run of the workflow.

* `Workflow.met`: the states that follow one another from the root.
* `TaskChain.Follows`: following links, without a bound; `TaskChain.follow_follows` says that the
  bound of `TaskChain.follow` is never reached.
* `TaskChain.Follows.met`: the links of a workflow are followed through the states that it meets.
* `TaskChain.IsSource`: a function with one line for each call, from which the
  activity can be read back.
* `Workflow.walk_inTurn`, `Process.InTurn.settle`: what a run does.
* `Compiler.generate_taskChain`: all of it together.
-/

namespace Orchestration

/-! ## The states that are met -/

/-- The state that is met after so many transitions from the root, as long as no payload decides. -/
def Workflow.met (w : Workflow) : Nat → Option String
  | 0 => some w.root
  | n + 1 => (w.met n).bind fun name => (w.state? name).bind State.next?

/-- None of the first `n` states that are met is met twice among them. -/
def Workflow.MeetsApart (w : Workflow) (n : Nat) : Prop :=
  ∀ i < n, ∀ j < n, ∀ name, w.met i = some name → w.met j = some name → i = j

/-- The state that is met at `n` is the first one that has been met before. -/
structure Workflow.MeetsAgain (w : Workflow) (n : Nat) (name : String) : Prop where
  met : w.met n = some name
  before : ∃ i < n, w.met i = some name
  first : w.MeetsApart n

def Workflow.OnlyTasks (w : Workflow) : Prop := ∀ e ∈ w.states, ∃ t, e.2 = .task t

/-- The state is a task that calls the activity. -/
def Workflow.CallsAt (w : Workflow) (name activity : String) : Prop :=
  ∃ next, w.state? name = some (.task ⟨activity, next⟩)

variable {w : Workflow}

instance (n : Nat) : Decidable (w.MeetsApart n) :=
  decidable_of_iff (∀ i < n, ∀ j < n, (w.met i).isSome → w.met i = w.met j → i = j) <| by
    refine forall₂_congr fun i _ => forall₂_congr fun j _ =>
      ⟨fun h name hFirst hSecond => ?_, fun h hSome hSame => ?_⟩
    · exact h (Option.isSome_of_eq_some hFirst) (hFirst.trans hSecond.symm)
    · obtain ⟨name, hFirst⟩ := Option.isSome_iff_exists.mp hSome
      exact h name hFirst (hSame ▸ hFirst)

/-- A state calls one activity. -/
theorem Workflow.callsAt_rightUnique : Relator.RightUnique w.CallsAt := by
  rintro name activity activity' ⟨next, h⟩ ⟨next', h'⟩
  cases h.symm.trans h'
  rfl

theorem Workflow.met_succ {n : Nat} {name : String} {s : State} (hMet : w.met n = some name)
    (hState : w.state? name = some s) : w.met (n + 1) = s.next? := by
  rw [Workflow.met, hMet, Option.bind_some, hState, Option.bind_some]

theorem Workflow.MeetsApart.mono {n m : Nat} (h : w.MeetsApart n) (hLe : m ≤ n) : w.MeetsApart m :=
  fun i hi j hj => h i (Nat.lt_of_lt_of_le hi hLe) j (Nat.lt_of_lt_of_le hj hLe)

theorem Workflow.MeetsApart.succ {n : Nat} {name : String} (h : w.MeetsApart n)
    (hMet : w.met n = some name) (hNew : ∀ i < n, w.met i ≠ some name) : w.MeetsApart (n + 1) := by
  intro i hi j hj other hFirst hSecond
  rcases Nat.lt_succ_iff_lt_or_eq.mp hi with hi | rfl <;>
    rcases Nat.lt_succ_iff_lt_or_eq.mp hj with hj | rfl
  · exact h i hi j hj other hFirst hSecond
  · exact absurd (hFirst.trans (hSecond.symm.trans hMet)) (hNew i hi)
  · exact absurd (hSecond.trans (hFirst.symm.trans hMet)) (hNew j hj)
  · rfl

theorem Workflow.MeetsAgain.not_apart {n : Nat} {name : String} (h : w.MeetsAgain n name) :
    ¬ w.MeetsApart (n + 1) := by
  obtain ⟨i, hi, hSame⟩ := h.before
  exact fun hApart =>
    Nat.ne_of_lt hi (hApart i (Nat.lt_succ_of_lt hi) n (Nat.lt_succ_self n) name hSame h.met)

/-- There is one first state that is met again. -/
theorem Workflow.MeetsAgain.unique {n m : Nat} {name name' : String} (h : w.MeetsAgain n name)
    (h' : w.MeetsAgain m name') : name = name' := by
  rcases Nat.lt_trichotomy n m with hLess | rfl | hLess
  · exact absurd (h'.first.mono hLess) h.not_apart
  · exact Option.some.inj (h.met.symm.trans h'.met)
  · exact absurd (h.first.mono hLess) h'.not_apart

/-- Once no state is met any more, no state is. -/
theorem Workflow.met_eq_none {n : Nat} (h : w.met n = none) :
    ∀ {m : Nat}, n ≤ m → w.met m = none := by
  intro m hLe
  induction hLe with
  | refl => exact h
  | step _ ih => rw [Workflow.met, ih, Option.bind_none]

/-- States that are met apart until none is met any more are met apart. -/
theorem Workflow.MeetsApart.of_none {n : Nat} (h : w.MeetsApart n) (hOver : w.met n = none)
    (m : Nat) :
    w.MeetsApart m := by
  have hBelow {i : Nat} {name : String} (hMet : w.met i = some name) : i < n := by
    by_contra hLate
    rw [Workflow.met_eq_none hOver (Nat.le_of_not_lt hLate)] at hMet
    cases hMet
  exact fun i _ j _ name hFirst hSecond =>
    h i (hBelow hFirst) j (hBelow hSecond) name hFirst hSecond

/-- What has been met before the state after `n`. -/
theorem Workflow.seen_succ {n : Nat} {name : String} {visited : List String}
    (hMet : w.met n = some name) (h : ∀ other, other ∈ visited ↔ ∃ i < n, w.met i = some other)
    (other : String) :
    other ∈ name :: visited ↔ ∃ i < n + 1, w.met i = some other := by
  rw [List.mem_cons, h]
  constructor
  · rintro (rfl | ⟨i, hi, hSame⟩)
    · exact ⟨n, Nat.lt_succ_self n, hMet⟩
    · exact ⟨i, Nat.lt_succ_of_lt hi, hSame⟩
  · rintro ⟨i, hi, hSame⟩
    rcases Nat.lt_succ_iff_lt_or_eq.mp hi with hi | rfl
    · exact .inr ⟨i, hi, hSame⟩
    · rw [hMet] at hSame
      exact .inl (Option.some.inj hSame).symm

/-! ## Links -/

namespace TaskChain

/-- The link under a name is that of the state under it. -/
def IsLink (e : String × State) (l : String × Link) : Prop :=
  e.1 = l.1 ∧ ∃ t, e.2 = .task t ∧ l.2 = link t

theorem stateLink_eq_ok_iff {name : String} {s : State} {l : Link} :
    stateLink name s = .ok l ↔ ∃ t, s = .task t ∧ l = link t := by
  cases s <;> simp [stateLink, eq_comm]

theorem isLink_of_links {taken : List String} {states : List (String × State)} {ls : Entries Link}
    (h : links taken states = .ok ls) : List.Forall₂ IsLink states ls := by
  induction states generalizing taken ls with
  | nil =>
    cases h
    exact .nil
  | cons e rest ih =>
    obtain ⟨name, s⟩ := e
    rw [links] at h
    obtain ⟨l, hLink, h⟩ := bind_eq_ok_iff.mp h
    obtain ⟨taken', -, h⟩ := bind_eq_ok_iff.mp h
    obtain ⟨ls', hRest, h⟩ := bind_eq_ok_iff.mp h
    cases pure_eq_ok_iff.mp h
    exact .cons ⟨rfl, stateLink_eq_ok_iff.mp hLink⟩ (ih hRest)

/-- Tasks with names of their own all have links. -/
theorem exists_links {states : List (String × State)} (hTasks : ∀ e ∈ states, ∃ t, e.2 = .task t)
    (hNames : (Entries.keys states).Nodup) {taken : List String}
    (hFree : ∀ name ∈ Entries.keys states, name ∉ taken) : ∃ ls, links taken states = .ok ls := by
  induction states generalizing taken with
  | nil => exact ⟨[], rfl⟩
  | cons e rest ih =>
    obtain ⟨name, s⟩ := e
    rw [Entries.keys_cons, List.nodup_cons] at hNames
    obtain ⟨⟨t, hTask⟩, hTasks⟩ := List.forall_mem_cons.mp hTasks
    obtain ⟨hName, hFree⟩ := List.forall_mem_cons.mp hFree
    have hClaim : claimNames target name taken [name] = .ok (name :: taken) := by
      rw [claimNames, if_neg (by simpa using hName), claimNames]
    have hRest : ∀ other ∈ Entries.keys rest, other ∉ name :: taken := by
      intro other hOther hTaken
      rcases List.mem_cons.mp hTaken with rfl | hTaken
      · exact hNames.1 hOther
      · exact hFree other hOther hTaken
    obtain ⟨ls, hLinks⟩ := ih hTasks hNames.2 hRest
    refine ⟨(name, link t) :: ls, ?_⟩
    rw [links]
    exact bind_eq_ok_iff.mpr ⟨_, stateLink_eq_ok_iff.mpr ⟨t, hTask, rfl⟩,
      bind_eq_ok_iff.mpr ⟨_, hClaim, bind_eq_ok_iff.mpr ⟨_, hLinks, rfl⟩⟩⟩

theorem get?_links {states : List (String × State)} {ls : Entries Link}
    (h : List.Forall₂ IsLink states ls) {name : String} {s : State}
    (hState : Entries.get? name states = some s) :
    ∃ t, s = .task t ∧ Entries.get? name ls = some (link t) := by
  induction h with
  | nil => cases hState
  | @cons e l rest ls hHead _ ih =>
    obtain ⟨k, s'⟩ := e
    obtain ⟨k', l⟩ := l
    obtain ⟨rfl, t, rfl, rfl⟩ := hHead
    rw [Entries.get?] at hState ⊢
    split
    · rename_i hName
      rw [if_pos hName] at hState
      cases hState
      exact ⟨t, rfl, rfl⟩
    · rename_i hName
      rw [if_neg hName] at hState
      exact ih hState

/-- Behind each name of a workflow of which all states have links is a task, and its link. -/
theorem exists_task {w : Workflow} {ls : Entries Link} (h : List.Forall₂ IsLink w.states ls)
    {name : String} (hName : name ∈ Entries.keys w.states) :
    ∃ t, w.state? name = some (.task t) ∧ Entries.get? name ls = some (link t) := by
  obtain ⟨s, hState⟩ := Workflow.exists_state hName
  obtain ⟨t, rfl, hLink⟩ := get?_links h hState
  exact ⟨t, hState, hLink⟩

/-! ## Following links -/

/-- Following links from a name on, as far as they lead: what comes of it. -/
inductive Follows (ls : Entries Link) :
    List String → String → Except CompileError (List String) → Prop
  | again {visited : List String} {name : String} (hVisited : name ∈ visited) :
    Follows ls visited name (.error (.invalid target name .cycle))
  | missing {visited : List String} {name : String} (hNew : name ∉ visited)
    (hLink : Entries.get? name ls = none) :
    Follows ls visited name (.error (.invalid target name .notEncoded))
  | last {visited : List String} {name : String} {l : Link} (hNew : name ∉ visited)
    (hLink : Entries.get? name ls = some l) (hNext : l.next = none) :
      Follows ls visited name (.ok [l.line])
  | next {visited : List String} {name next : String} {l : Link}
    {result : Except CompileError (List String)} (hNew : name ∉ visited)
      (hLink : Entries.get? name ls = some l) (hNext : l.next = some next)
    (hRest : Follows ls (name :: visited) next result) :
      Follows ls visited name ((l.line :: ·) <$> result)

/-- The bound of `follow` is never reached: each step visits a link that was not visited before. -/
theorem follow_follows (ls : Entries Link) (fuel : Nat) :
    ∀ {visited : List String} (name : String), visited.Nodup → visited ⊆ Entries.keys ls →
      ls.length < visited.length + fuel →
      Follows ls visited name (follow ls visited name fuel) := by
  induction fuel with
  | zero =>
    intro visited name hNodup hLinks hFuel
    have hLength := (List.subperm_of_subset hNodup hLinks).length_le
    rw [Entries.keys, List.length_map] at hLength
    omega
  | succ fuel ih =>
    intro visited name hNodup hLinks hFuel
    rw [follow]
    split
    · rename_i hVisited
      exact .again (List.contains_iff_mem.mp hVisited)
    · rename_i hVisited
      have hNew : name ∉ visited := fun hMem => hVisited (List.contains_iff_mem.mpr hMem)
      cases hLink : Entries.get? name ls with
      | none => exact .missing hNew hLink
      | some l =>
        cases hNext : l.next with
        | none =>
          simp only [hNext]
          exact .last hNew hLink hNext
        | some next =>
          simp only [hNext]
          refine .next hNew hLink hNext (ih next (List.nodup_cons.mpr ⟨hNew, hNodup⟩) ?_ ?_)
          · exact List.cons_subset.mpr ⟨List.mem_map_of_mem (Entries.mem_of_get? hLink), hLinks⟩
          · rw [List.length_cons]
            omega

/-! ## The links of a workflow -/

/-- Following the links of a valid workflow from the state that is met at `n`: the lines are
those of the states that are met from there on, none of which is met twice, or the first state is
found that is met again. -/
theorem Follows.met {w : Workflow} (hValid : w.validate = .ok ()) {ls : Entries Link}
    (hLinks : List.Forall₂ IsLink w.states ls) {visited : List String} {name : String}
    {result : Except CompileError (List String)} (h : Follows ls visited name result) :
    ∀ {n : Nat}, w.met n = some name → name ∈ Entries.keys w.states → w.MeetsApart n →
      (∀ other, other ∈ visited ↔ ∃ i < n, w.met i = some other) →
      (∃ names activities, result = .ok (activities.map callLine) ∧
        (∀ i, names[i]? = w.met (n + i)) ∧
          List.Forall₂ w.CallsAt names activities ∧ ∀ m, w.MeetsApart m) ∨
        ∃ m again, w.MeetsAgain m again ∧ result = .error (.invalid target again .cycle) := by
  induction h with
  | again hVisited =>
    intro n hMet _ hApart hSeen
    exact .inr ⟨n, _, ⟨hMet, (hSeen _).mp hVisited, hApart⟩, rfl⟩
  | missing hNew hLink =>
    intro n _ hName _ _
    obtain ⟨t, -, hFound⟩ := exists_task hLinks hName
    rw [hLink] at hFound
    cases hFound
  | @last visited name l hNew hLink hNext =>
    intro n hMet hName hApart hSeen
    obtain ⟨t, hState, hFound⟩ := exists_task hLinks hName
    cases hLink.symm.trans hFound
    have hOver : w.met (n + 1) = none := (Workflow.met_succ hMet hState).trans hNext
    refine .inl ⟨[name], [t.activity], rfl, fun i => ?_, .cons ⟨t.next, hState⟩ .nil, fun m => ?_⟩
    · cases i with
      | zero => exact hMet.symm
      | succ i => exact (Workflow.met_eq_none hOver (by omega)).symm
    · have hLater := hApart.succ hMet fun i hi hSame => hNew ((hSeen name).mpr ⟨i, hi, hSame⟩)
      exact hLater.of_none hOver m
  | @next visited name next l result hNew hLink hNext _ ih =>
    intro n hMet hName hApart hSeen
    obtain ⟨t, hState, hFound⟩ := exists_task hLinks hName
    cases hLink.symm.trans hFound
    have hMetNext : w.met (n + 1) = some next := (Workflow.met_succ hMet hState).trans hNext
    have hSuccessor : (State.task t).successor .null = .ok (some next) := congrArg Except.ok hNext
    have hDeclared : next ∈ Entries.keys w.states :=
      ((Workflow.validate_eq_ok_iff.mp hValid).2 name _ (Workflow.mem_states hState)).1 next
        (State.successor_mem hSuccessor)
    have hLater := hApart.succ hMet fun i hi hSame => hNew ((hSeen name).mpr ⟨i, hi, hSame⟩)
    rcases ih hMetNext hDeclared hLater (Workflow.seen_succ hMet hSeen) with hChain | hAgain
    · obtain ⟨names, activities, rfl, hNames, hCalls, hAll⟩ := hChain
      refine .inl ⟨name :: names, t.activity :: activities, rfl, fun i => ?_,
        .cons ⟨t.next, hState⟩ hCalls, hAll⟩
      cases i with
      | zero => exact hMet.symm
      | succ i =>
        rw [List.getElem?_cons_succ, hNames i]
        congr 1
        omega
    · obtain ⟨m, again, hMeets, rfl⟩ := hAgain
      exact .inr ⟨m, again, hMeets, rfl⟩

/-! ## Lines -/

/-- What stands before the string literal with the activity in a line. -/
def callFront : String := "payload = yield context.call_activity("

/-- What stands after the string literal with the activity in a line. -/
def callBack : String := ", \x7b\"payload\": payload, \"request_id\": request_id\x7d)"

/-- A line up to the name of the activity, the opening quotation mark included. -/
def callHead : List Char := callFront.toList ++ ['"']

/-- The activity that a line calls, read from the string literal in it. -/
def calledIn? (line : String) : Option String :=
  if callHead.isPrefixOf line.toList then
    match Json.Draft.readString (line.toList.drop callHead.length) with
    | (.str activity, rest) => if rest = callBack.toList then some activity else none
    | _ => none
  else none

/-- The text is the function that calls the activities in this order: between prologue and epilogue
each call has a line to itself, with nothing in it that breaks lines. -/
def IsSource (activities : List String) (text : String) : Prop :=
  ∃ lines : List String,
    text = prologue ++ String.join (lines.map fun line => "    " ++ line ++ "\n") ++ epilogue ∧
      List.Forall₂ (fun activity line => calledIn? line = some activity ∧ ∀ c ∈ line.toList,
        32 ≤ c.toNat) activities lines

theorem callLine_eq (activity : String) :
    callLine activity = callFront ++ (Json.str activity).compact ++ callBack := rfl

theorem toList_callLine (activity : String) :
    (callLine activity).toList =
      callHead ++ (Json.escape activity.toList ++ '"' :: callBack.toList) := by
  rw [callLine_eq, callHead, Json.compact]
  generalize callFront = front, callBack = back
  simp [Json.compactText, Json.quoted]

theorem calledIn?_callLine (activity : String) : calledIn? (callLine activity) = some activity := by
  rw [calledIn?, toList_callLine, if_pos (by simp), List.drop_left, Json.Draft.readString_escape]
  exact if_pos rfl

theorem le_toNat_of_mem_escapeChar {c d : Char} (h : d ∈ Json.escapeChar c) : 32 ≤ d.toNat := by
  have hDigit : ∀ n < 32, 32 ≤ (Nat.digitChar (n / 16)).toNat ∧
      32 ≤ (Nat.digitChar (n % 16)).toNat := by
    decide
  have hShort {e : Char} (he : 32 ≤ e.toNat) (h : d ∈ ['\\', e]) : 32 ≤ d.toNat := by
    rcases List.mem_pair.mp h with rfl | rfl
    · decide
    · exact he
  unfold Json.escapeChar at h
  split_ifs at h with hQuote hMark h8 h9 h10 h12 h13 hLow
  · exact hShort (by decide) h
  · exact hShort (by decide) h
  · exact hShort (by decide) h
  · exact hShort (by decide) h
  · exact hShort (by decide) h
  · exact hShort (by decide) h
  · exact hShort (by decide) h
  · simp only [List.mem_cons, List.not_mem_nil, or_false] at h
    rcases h with rfl | rfl | rfl | rfl | rfl | rfl
    · decide
    · decide
    · decide
    · decide
    · exact (hDigit _ hLow).1
    · exact (hDigit _ hLow).2
  · rw [List.mem_singleton.mp h]
    omega

/-- Whatever is in the name of an activity, its line is one line. -/
theorem le_toNat_of_mem_callLine (activity : String) :
    ∀ c ∈ (callLine activity).toList, 32 ≤ c.toNat := by
  have hHead : callHead.all fun c => 32 ≤ c.toNat := by decide
  have hTail : ('"' :: callBack.toList).all fun c => 32 ≤ c.toNat := by decide
  intro c hc
  rw [toList_callLine, List.mem_append, List.mem_append] at hc
  rcases hc with hc | hc | hc
  · exact of_decide_eq_true (List.all_eq_true.mp hHead c hc)
  · obtain ⟨_, -, hc⟩ := List.mem_flatMap.mp hc
    exact le_toNat_of_mem_escapeChar hc
  · exact of_decide_eq_true (List.all_eq_true.mp hTail c hc)

theorem isSource_source (activities : List String) :
    IsSource activities (source (activities.map callLine)) := by
  refine ⟨activities.map callLine, rfl, ?_⟩
  rw [List.forall₂_map_right_iff]
  exact List.forall₂_same.mpr fun activity _ =>
    ⟨calledIn?_callLine activity, le_toNat_of_mem_callLine activity⟩

end TaskChain

/-! ## Runs -/

/-- The process calls the activities one after the other, as long as they answer well,
and ends with the trace. -/
def Process.InTurn (requestId : String) (trace : List String) : List String → Process → Prop
  | [], p => ∃ v, p = .done (.ok ⟨v, trace⟩)
  | activity :: rest, p => ∃ payload next, p = .call ⟨activity, payload, requestId⟩ next ∧
      ∀ v, InTurn requestId trace rest (next (.ok v))

/-- If all calls are answered well, such a process is run to its end and makes all its calls. -/
theorem Process.InTurn.settle {env : Environment} {requestId : String} {trace : List String}
    (hAnswers : ∀ world r, ∃ v, (env.respond world r).answer = .ok v) {activities : List String} :
    ∀ {p : Process} (world : World) {fuel : Nat}, p.InTurn requestId trace activities →
      activities.length < fuel → ∃ v world',
        (p.start env world).1.settle env fuel (p.start env world).2 =
          some (.ok ⟨v, trace⟩, world') ∧
        world'.past.reverse.map Request.activity = world.past.reverse.map Request.activity ++
          activities := by
  induction activities with
  | nil =>
    rintro _ world fuel ⟨v, rfl⟩ hFuel
    obtain ⟨fuel, rfl⟩ := Nat.exists_eq_succ_of_ne_zero (Nat.ne_of_gt hFuel)
    rw [Process.start]
    exact ⟨v, world, rfl, (List.append_nil _).symm⟩
  | cons activity rest ih =>
    rintro _ world fuel ⟨payload, next, rfl, hNext⟩ hFuel
    rw [List.length_cons] at hFuel
    obtain ⟨v, hAnswer⟩ := hAnswers world ⟨activity, payload, requestId⟩
    rw [Process.start]
    split
    · obtain ⟨v', world', hSettle, hCalls⟩ :=
        ih { world with past := ⟨activity, payload, requestId⟩ :: world.past } (hNext v)
          (Nat.lt_of_succ_lt hFuel)
      rw [hAnswer]
      exact ⟨v', world', hSettle, by simpa using hCalls⟩
    · obtain ⟨fuel, rfl⟩ := Nat.exists_eq_succ_of_ne_zero (Nat.ne_of_gt (Nat.zero_lt_of_lt hFuel))
      obtain ⟨v', world', hSettle, hCalls⟩ := ih
        ⟨world.now + (env.respond world ⟨activity, payload, requestId⟩).delay,
          ⟨activity, payload, requestId⟩ :: world.past⟩ (hNext v) (Nat.lt_of_succ_lt_succ hFuel)
      refine ⟨v', world', Strand.settle_succ_eq_some.mpr (.inr ⟨_, rfl, ?_⟩), by simpa using hCalls⟩
      rw [Strand.resume, if_pos (Nat.le_refl _), hAnswer]
      exact hSettle

/-- A walk from the state that is met at `n`, through tasks that are met until none is left. -/
theorem Workflow.walk_inTurn (limits : Limits) (ctx : Context) {names activities : List String}
    (hCalls : List.Forall₂ w.CallsAt names activities) :
    ∀ {n fuel : Nat} {name : String} (payload : Json) (visited : List String), w.met n = some name →
      (∀ i, names[i]? = w.met (n + i)) → names.length ≤ fuel →
      (w.walk limits fuel ctx name payload visited).InTurn ctx.requestId (visited.reverse ++ names)
        activities := by
  induction hCalls with
  | nil =>
    intro n fuel name payload visited hMet hNames _
    have hNone := hNames 0
    rw [Nat.add_zero, hMet] at hNone
    cases hNone
  | @cons first activity rest activities hHead hRest ih =>
    intro n fuel name payload visited hMet hNames hFuel
    obtain rfl : first = name := Option.some.inj ((hNames 0).trans hMet)
    obtain ⟨next, hState⟩ := hHead
    rw [List.length_cons] at hFuel
    obtain ⟨fuel, rfl⟩ : ∃ f, fuel = f + 1 := ⟨fuel - 1, by omega⟩
    have hMetNext : w.met (n + 1) = next := Workflow.met_succ hMet hState
    have hLater : ∀ i, rest[i]? = w.met (n + 1 + i) := by
      intro i
      rw [show n + 1 + i = n + (i + 1) by omega, ← hNames (i + 1), List.getElem?_cons_succ]
    rw [Workflow.walk_task hState]
    refine ⟨payload, _, rfl, fun v => ?_⟩
    cases next with
    | none =>
      have hOver : rest = [] :=
        List.length_eq_zero_iff.mp
          (Nat.le_zero.mp (List.getElem?_eq_none_iff.mp ((hLater 0).trans hMetNext)))
      subst hOver
      cases hRest
      exact ⟨v, by simp [Workflow.goOn]⟩
    | some next =>
      have hWalk := ih v (first :: visited) hMetNext hLater (Nat.le_of_succ_le_succ hFuel)
      simpa [Workflow.goOn] using hWalk

/-- A run through tasks that are met until none is left, if all calls are
answered well and in time. -/
theorem Workflow.run_inTurn {limits : Limits} {caller : Caller} {names activities : List String}
    (hNames : ∀ i, names[i]? = w.met i) (hCalls : List.Forall₂ w.CallsAt names activities)
    (hAnswers : ∀ past r, ∃ v, (caller past r).answer = .ok v)
    (hTime : caller.InTime limits.activityTimeout) (requestId : String) (payload : Json)
    {fuel : Nat} (hFuel : activities.length < fuel) :
    ∃ e v, w.run limits caller fuel requestId payload = some e ∧ e.result = .ok ⟨v, names⟩ ∧
      e.calls.map Request.activity = activities := by
  have hWalk : (w.process limits fuel requestId payload).InTurn requestId names activities :=
    Workflow.walk_inTurn limits (.top requestId) hCalls payload [] rfl
      (fun i => by rw [Nat.zero_add, hNames]) (Nat.le_of_lt (hCalls.length_eq ▸ hFuel))
  have hRespond (world : World) (r : Request) :
      ∃ v, ((Environment.mk caller limits.activityTimeout).respond world r).answer = .ok v := by
    rw [hTime.respond]
    exact hAnswers world.past r
  obtain ⟨v, world, hSettle, hMade⟩ := hWalk.settle hRespond ⟨0, []⟩ hFuel
  exact ⟨_, v, Option.map_eq_some_iff.mpr ⟨_, hSettle, rfl⟩, rfl, hMade⟩

/-! ## Orchestrator functions -/

theorem Workflow.orchestrator_of_links {ls : Entries TaskChain.Link}
    (h : TaskChain.links [] w.states = .ok ls) :
    w.orchestrator = TaskChain.source <$> TaskChain.follow ls [] w.root (ls.length + 1) := by
  rw [Workflow.orchestrator, h]
  rfl

theorem Workflow.onlyTasks_of_orchestrator {text : String} (h : w.orchestrator = .ok text) :
    w.OnlyTasks := by
  obtain ⟨ls, hLinks, -⟩ := bind_eq_ok_iff.mp h
  have hEach : List.Forall₂ (fun e l => (∃ t, e.2 = .task t) ∧ TaskChain.IsLink e l) w.states ls :=
    (TaskChain.isLink_of_links hLinks).imp fun _ _ hLink =>
      ⟨hLink.2.imp fun _ hTask => hTask.1, hLink⟩
  exact ((List.forall₂_and_left _ _).mp hEach).1

/-- The function of a valid workflow of tasks, or the state with which it comes back to itself. -/
theorem Workflow.orchestrator_of_onlyTasks (hNodup : (Entries.keys w.states).Nodup)
    (hValid : w.validate = .ok ()) (hTasks : w.OnlyTasks) :
    (∃ names activities,
      w.orchestrator = .ok (TaskChain.source (activities.map TaskChain.callLine)) ∧
        (∀ i, names[i]? = w.met i) ∧ List.Forall₂ w.CallsAt names activities ∧
          ∀ n, w.MeetsApart n) ∨
      ∃ n again, w.MeetsAgain n again ∧
        w.orchestrator = .error (.invalid .durable again .cycle) := by
  obtain ⟨ls, hLinks⟩ := TaskChain.exists_links hTasks hNodup fun _ _ => List.not_mem_nil
  have hFollows : TaskChain.Follows ls [] w.root (TaskChain.follow ls [] w.root (ls.length + 1)) :=
    TaskChain.follow_follows ls _ w.root List.nodup_nil (List.nil_subset _) (by simp)
  have hRoot : w.root ∈ Entries.keys w.states := (Workflow.validate_eq_ok_iff.mp hValid).1
  rw [Workflow.orchestrator_of_links hLinks]
  rcases hFollows.met hValid (TaskChain.isLink_of_links hLinks) (n := 0) rfl hRoot
      (by simp [Workflow.MeetsApart]) (by simp) with hChain | hAgain
  · obtain ⟨names, activities, hFollow, hNames, hCalls, hApart⟩ := hChain
    simp only [Nat.zero_add] at hNames
    exact .inl ⟨names, activities, by rw [hFollow]; rfl, hNames, hCalls, hApart⟩
  · obtain ⟨n, again, hMeets, hFollow⟩ := hAgain
    exact .inr ⟨n, again, hMeets, by rw [hFollow]; rfl⟩

/-- A workflow that has a function is a chain of tasks that come to an end. -/
theorem Workflow.chain_of_orchestrator (hNodup : (Entries.keys w.states).Nodup)
    (hValid : w.validate = .ok ()) {text : String} (h : w.orchestrator = .ok text) :
    ∃ names activities, text = TaskChain.source (activities.map TaskChain.callLine) ∧
      (∀ i, names[i]? = w.met i) ∧ List.Forall₂ w.CallsAt names activities ∧
      ∀ n, w.MeetsApart n := by
  rcases Workflow.orchestrator_of_onlyTasks hNodup hValid
      (Workflow.onlyTasks_of_orchestrator h) with
    ⟨names, activities, hSource, hChain⟩ | ⟨n, again, -, hError⟩
  · rw [h] at hSource
    exact ⟨names, activities, Except.ok.inj hSource, hChain⟩
  · rw [h] at hError
    cases hError

theorem Compiler.generate_durable {c : Compiler} (h : c.target = .durable) (w : Workflow) :
    (c.generate w).1 = w.orchestrator := by
  obtain ⟨target, steps⟩ := c
  cases h
  unfold Compiler.generate Compiler.encode
  cases w.orchestrator <;> rfl

/-- A compiler for orchestrator functions turns a valid workflow into a text just if all states are
tasks and none is met twice; its search for the calls ends in any case. The text has one line for
each state of the trace of a run, in this order and with the call of this state in it. A chain that
comes back is reported at the state that is the first to be met again. -/
theorem Compiler.generate_taskChain {c : Compiler} {w : Workflow} (hTarget : c.target = .durable)
    (hNodup : (Entries.keys w.states).Nodup) (hValid : w.validate = .ok ()) :
    ((∃ text, (c.generate w).1 = .ok text) ↔ w.OnlyTasks ∧ ∀ n, w.MeetsApart n) ∧
      (∀ (ls : Entries TaskChain.Link) (root : String),
        TaskChain.Follows ls [] root (TaskChain.follow ls [] root (ls.length + 1))) ∧
      (∀ text, (c.generate w).1 = .ok text → ∃ names activities,
        (∀ i, names[i]? = w.met i) ∧ List.Forall₂ w.CallsAt names activities ∧
        TaskChain.IsSource activities text ∧
        ∀ (limits : Limits) (caller : Caller) (requestId : String) (payload : Json),
          (∀ past r, ∃ v, (caller past r).answer = .ok v) → caller.InTime limits.activityTimeout →
          ∃ bound, ∀ fuel ≥ bound, ∃ e v, w.run limits caller fuel requestId payload = some e ∧
            e.result = .ok ⟨v, names⟩ ∧ e.calls.map Request.activity = activities) ∧
      (w.OnlyTasks → (¬ ∀ n, w.MeetsApart n) → ∃ n again, w.MeetsAgain n again ∧
        (c.generate w).1 = .error (.invalid .durable again .cycle)) := by
  rw [Compiler.generate_durable hTarget]
  refine ⟨⟨?_, ?_⟩, ?_, ?_, ?_⟩
  · rintro ⟨text, hText⟩
    obtain ⟨_, _, -, -, -, hApart⟩ := Workflow.chain_of_orchestrator hNodup hValid hText
    exact ⟨Workflow.onlyTasks_of_orchestrator hText, hApart⟩
  · rintro ⟨hTasks, hApart⟩
    rcases Workflow.orchestrator_of_onlyTasks hNodup hValid hTasks with hChain
      | ⟨n, again, hAgain, -⟩
    · obtain ⟨_, _, hText, -⟩ := hChain
      exact ⟨_, hText⟩
    · exact absurd (hApart (n + 1)) hAgain.not_apart
  · intro ls root
    exact TaskChain.follow_follows ls _ root List.nodup_nil (List.nil_subset _) (by simp)
  · intro text hText
    obtain ⟨names, activities, rfl, hNames, hCalls, -⟩ :=
      Workflow.chain_of_orchestrator hNodup hValid hText
    refine ⟨names, activities, hNames, hCalls, TaskChain.isSource_source activities, ?_⟩
    intro limits caller requestId payload hAnswers hTime
    exact ⟨activities.length + 1, fun fuel hFuel =>
      Workflow.run_inTurn hNames hCalls hAnswers hTime requestId payload hFuel⟩
  · intro hTasks hLoops
    rcases Workflow.orchestrator_of_onlyTasks hNodup hValid hTasks with hChain | hAgain
    · obtain ⟨_, _, -, -, -, hApart⟩ := hChain
      exact absurd hApart hLoops
    · exact hAgain

/-- Declared in another order than it runs, with activities whose names would
break out of a string. -/
def outOfOrder : Workflow :=
  ⟨"first", [("last", .task ⟨"a\nb", none⟩), ("first", .task ⟨"a\"b", some "middle"⟩),
    ("middle", .task ⟨"a\\", some "last"⟩)]⟩

/-- Comes back to its second state. -/
def comesBack : Workflow :=
  ⟨"a", [("a", .task ⟨"f", some "b"⟩), ("b", .task ⟨"g", some "c"⟩), ("c", .task ⟨"h", some "b"⟩)]⟩

/-- One chain with a function, and one that is refused for the state to which it comes back. -/
theorem Compiler.generate_taskChain_outOfOrder :
    ((Entries.keys outOfOrder.states).Nodup ∧ outOfOrder.validate = .ok () ∧
      ∃ text, ((fresh .durable ⟨none, []⟩ "d").generate outOfOrder).1 = .ok text ∧
      TaskChain.IsSource ["a\"b", "a\\", "a\nb"] text ∧
      ∃ bound, ∀ fuel ≥ bound, ∃ e v,
        outOfOrder.run ⟨3, some 5, none⟩ (hundredfold.caller fun past => if past.isEmpty then 5
          else 2) fuel "r" (.int 1) = some e ∧
        e.result = .ok ⟨v, ["first", "middle", "last"]⟩ ∧
        e.calls.map Request.activity = ["a\"b", "a\\", "a\nb"]) ∧
      (Entries.keys comesBack.states).Nodup ∧ comesBack.validate = .ok () ∧
      ((fresh .durable ⟨none, []⟩ "d").generate comesBack).1 =
        .error (.invalid .durable "b" .cycle) := by
  have hAnswers (past : List Request) (r : Request) : ∃ v,
      (hundredfold.caller (fun past => if past.isEmpty then 5 else 2) past r).answer = .ok v := by
    show ∃ v, hundredfold r.activity r.payload = .ok v
    unfold hundredfold
    split <;> exact ⟨_, rfl⟩
  have hTime : (hundredfold.caller fun past => if past.isEmpty then 5 else 2).InTime (some 5) :=
    hundredfold.caller_inTime fun _ => by split <;> decide
  have hTarget : (fresh .durable ⟨none, []⟩ "d").target = .durable := rfl
  constructor
  · have hNodup : (Entries.keys outOfOrder.states).Nodup := by decide
    have hValid : outOfOrder.validate = .ok () := rfl
    obtain ⟨hIff, -, hText, -⟩ := generate_taskChain hTarget hNodup hValid
    have hTasks : outOfOrder.OnlyTasks := by
      simp [Workflow.OnlyTasks, outOfOrder]
    have hApart : outOfOrder.MeetsApart 3 := by decide
    obtain ⟨text, hText'⟩ := hIff.mpr ⟨hTasks, fun n => hApart.of_none rfl n⟩
    obtain ⟨names, activities, hNames, hCalls, hSource, hRun⟩ := hText text hText'
    obtain rfl : names = ["first", "middle", "last"] := by
      refine List.ext_getElem? fun i => (hNames i).trans ?_
      match i with
      | 0 => rfl
      | 1 => rfl
      | 2 => rfl
      | i + 3 => exact Workflow.met_eq_none (n := 3) rfl (by omega)
    obtain rfl : activities = ["a\"b", "a\\", "a\nb"] :=
      List.right_unique_forall₂' Workflow.callsAt_rightUnique hCalls
        (.cons ⟨_, rfl⟩ (.cons ⟨_, rfl⟩ (.cons ⟨_, rfl⟩ .nil)))
    exact ⟨hNodup, hValid, text, hText', hSource,
      hRun ⟨3, some 5, none⟩ _ "r" (.int 1) hAnswers hTime⟩
  · have hNodup : (Entries.keys comesBack.states).Nodup := by decide
    have hValid : comesBack.validate = .ok () := rfl
    obtain ⟨-, -, -, hError⟩ := generate_taskChain hTarget hNodup hValid
    have hTasks : comesBack.OnlyTasks := by
      simp [Workflow.OnlyTasks, comesBack]
    have hAgain : comesBack.MeetsAgain 3 "b" := ⟨rfl, ⟨1, by decide, rfl⟩, by decide⟩
    obtain ⟨n, again, hMeets, hGenerate⟩ := hError hTasks fun hApart => hAgain.not_apart (hApart 4)
    rw [hMeets.unique hAgain] at hGenerate
    exact ⟨hNodup, hValid, hGenerate⟩

end Orchestration
