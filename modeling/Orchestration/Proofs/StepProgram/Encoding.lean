import Orchestration.Proofs.StepProgram.Sites
import Orchestration.Proofs.Target.Addresses

/-!
# What the encoding as a step program gives

The lemmas `…_eq_ok_iff` say what the steps of a state are. `statesSteps_eq_ok` says of the steps of
all states that their names differ and that the steps of each state stand among them side by side.
-/

namespace Orchestration

namespace StepProgram

variable {sc : Scope}

/-! ## Names -/

theorem ident_append (a b : String) : ident (a ++ b) = ident a ++ ident b := by
  simp [ident, String.toList_append]

theorem Scope.name_append (sc : Scope) (a b : String) :
    sc.name (a ++ b) = sc.name a ++ ident b := by
  unfold Scope.name
  cases sc.slot <;> simp [ident_append, String.append_assoc]

/-! ## Steps of each kind of state -/

theorem post_eq_ok_iff {activity result : String} {payload : Template} {call : Step} :
    sc.post activity payload result = .ok call ↔
      ∃ url, sc.resolver.resolve activity = some url ∧ .post url payload result = call := by
  rw [Scope.post]
  simp only [bind_eq_ok_iff, pure_eq_ok_iff, addressOf_eq_ok_iff]

theorem taskSteps_eq_ok_iff {name : String} {t : TaskState} {p : StepProgram} :
    taskSteps sc name t = .ok p ↔ ∃ url, sc.resolver.resolve t.activity = some url ∧
      [(sc.name name, .post url (.var sc.payloadVar) sc.payloadVar),
        (sc.name (name ++ "_result"),
          .assign [(.var sc.payloadVar, .expr (.read (.field sc.payloadVar "body")))]
            (some (sc.next t.next)))] = p := by
  rw [taskSteps]
  simp only [bind_eq_ok_iff, pure_eq_ok_iff, post_eq_ok_iff]
  constructor
  · rintro ⟨-, ⟨url, hUrl, rfl⟩, rfl⟩
    exact ⟨url, hUrl, rfl⟩
  · rintro ⟨url, hUrl, rfl⟩
    exact ⟨_, ⟨url, hUrl, rfl⟩, rfl⟩

/-- The steps of each task of a chain stand side by side in those of the chain. -/
theorem chainSteps_eq_ok {tasks : List (String × TaskState)} {p : StepProgram}
    (h : chainSteps sc tasks = .ok p) : ∀ name t, (name, t) ∈ tasks →
      ∃ steps, taskSteps sc name t = .ok steps ∧ steps <:+: p := by
  induction tasks generalizing p with
  | nil => simp
  | cons entry rest ih =>
    obtain ⟨name, t⟩ := entry
    obtain ⟨steps, hSteps, more, hMore, rfl⟩ := chainSteps_cons_eq_ok_iff.mp h
    intro name' t' hMem
    rcases List.mem_cons.mp hMem with hMem | hMem
    · cases hMem
      exact ⟨steps, hSteps, (List.prefix_append steps more).isInfix⟩
    · obtain ⟨steps', hSteps', hIn⟩ := ih hMore name' t' hMem
      exact ⟨steps', hSteps', hIn.trans (List.suffix_append steps more).isInfix⟩

theorem loopSteps_eq_ok_iff {name : String} {l : LoopState} {p : StepProgram} :
    loopSteps sc name l = .ok p ↔ ∃ url, sc.resolver.resolve l.activity = some url ∧
      [(sc.name name, .forEach (sc.name (name ++ "_element")) (sc.place l.array)
        [(sc.name (name ++ "_invoke"), .post url (.var (sc.name (name ++ "_element")))
          (sc.name (name ++ "_response")))]),
        (sc.name (name ++ "_done"), .goto (sc.next l.next))] = p := by
  rw [loopSteps]
  simp only [bind_eq_ok_iff, pure_eq_ok_iff, post_eq_ok_iff]
  constructor
  · rintro ⟨-, ⟨url, hUrl, rfl⟩, rfl⟩
    exact ⟨url, hUrl, rfl⟩
  · rintro ⟨url, hUrl, rfl⟩
    exact ⟨_, ⟨url, hUrl, rfl⟩, rfl⟩

theorem inlineMap_eq_ok_iff {name activity : String} {m : MapState} {p : StepProgram} :
    inlineMap sc name m activity = .ok p ↔ ∃ url, sc.resolver.resolve activity = some url ∧
      [(sc.name name, .assign [(.var (sc.name (name ++ "_results")), .emptyObject),
          (.var (sc.name (name ++ "_list")), .emptyList)] none),
        (sc.name (name ++ "_fanout"), .parallelFor (sc.name (name ++ "_results")) m.maxConcurrency
          (sc.name (name ++ "_element")) (sc.name (name ++ "_index")) (sc.place m.array)
          [(sc.name (name ++ "_invoke"),
            .post url (sc.elementPayload m (sc.name (name ++ "_element")))
              (sc.name (name ++ "_response"))),
            (sc.name (name ++ "_store"), .assign
              [(.keyed (sc.name (name ++ "_results")) (sc.name (name ++ "_index")),
                .expr (.read (.field (sc.name (name ++ "_response")) "body")))] none)]),
        (sc.name (name ++ "_gather"),
          .forPositions (sc.name (name ++ "_position")) (sc.place m.array)
            [(sc.name (name ++ "_append"), .assign
              [(.var (sc.name (name ++ "_list")),
                .expr (.append (sc.name (name ++ "_list"))
                  (.keyed (sc.name (name ++ "_results")) (sc.name (name ++ "_position")))))]
              none)]),
        (sc.name (name ++ "_writeback"),
          .assign [(sc.place m.array, .var (sc.name (name ++ "_list")))]
            (some (sc.next m.next)))] = p := by
  rw [inlineMap]
  simp only [bind_eq_ok_iff, pure_eq_ok_iff, post_eq_ok_iff]
  constructor
  · rintro ⟨-, ⟨url, hUrl, rfl⟩, rfl⟩
    exact ⟨url, hUrl, rfl⟩
  · rintro ⟨url, hUrl, rfl⟩
    exact ⟨_, ⟨url, hUrl, rfl⟩, rfl⟩

theorem liftedMap_eq_ok_iff {name : String} {m : MapState} {next : Option String} {body : Workflow}
    {lifted : List (String × Workflow)} {p : StepProgram} :
    liftedMap sc name m next body = ⟨lifted, .ok p⟩ ↔ [(liftedId sc name, body)] = lifted ∧
      [(sc.name name, .assign [(.var (sc.name (name ++ "_elements")), .emptyList)] none),
        (sc.name (name ++ "_collect"), .forEach (sc.name (name ++ "_element")) (sc.place m.array)
          [(sc.name (name ++ "_append"), .assign
            [(.var (sc.name (name ++ "_item")),
              .object [("payload", sc.elementPayload m (sc.name (name ++ "_element"))),
                (requestIdVar, .var requestIdVar)]),
              (.var (sc.name (name ++ "_elements")), .expr (.append (sc.name (name ++ "_elements"))
                (.var (sc.name (name ++ "_item")))))] none)]),
        (sc.name (name ++ "_call"),
          .runMap (liftedId sc name) (sc.name (name ++ "_elements"))
            (sc.name (name ++ "_results"))),
        (sc.name (name ++ "_writeback"),
          .assign [(sc.place m.array, .var (sc.name (name ++ "_results")))]
            (some (sc.next next)))] = p := by
  rw [liftedMap]
  simp only [Lifting.bind_eq_ok_iff, Lifting.pure_eq_ok_iff]
  constructor
  · rintro ⟨_, _, _, hLift, ⟨rfl, rfl⟩, rfl⟩
    cases hLift
    exact ⟨rfl, rfl⟩
  · rintro ⟨rfl, rfl⟩
    exact ⟨_, (), [], rfl, ⟨rfl, rfl⟩, rfl⟩

/-! ## Steps of branches -/

theorem wrapBranch_eq_ok_iff {state slot root : String} {steps : StepProgram}
    {array : Option String} {program : String × StepProgram} :
    wrapBranch sc state slot root steps array = .ok program ↔
      (∀ name ∈ Entries.keys steps, name ∉ branchReserved slot) ∧
      (slot, (slot ++ "_start", .assign [(.var (sc.inBranch slot).payloadVar, .var sc.payloadVar)]
          (some ((sc.inBranch slot).name root))) ::
        (steps ++ finishSteps slot (sc.inBranch slot).payloadVar array)) = program := by
  unfold wrapBranch
  split
  · rename_i taken _ hFound
    have hTaken := List.find?_some hFound
    have hMem := List.mem_map_of_mem (f := Prod.fst) (List.mem_of_find?_eq_some hFound)
    simp only [reduceCtorEq, false_iff, not_and]
    intro hFree
    exact absurd (List.contains_iff_mem.mp hTaken) (hFree _ hMem)
  · rename_i hFree
    rw [List.find?_eq_none] at hFree
    simp only [Except.ok.injEq, iff_and_self]
    rintro -
    intro name hName hReserved
    obtain ⟨s, hs, rfl⟩ := List.mem_map.mp hName
    exact hFree s hs (List.contains_iff_mem.mpr hReserved)

/-! ## Steps of all states -/

theorem statesSteps_cons_eq_ok_iff {taken : List String} {name : String} {s : State}
    {rest : List (String × State)} {lifted : List (String × Workflow)} {p : StepProgram} :
    statesSteps sc taken ((name, s) :: rest) = ⟨lifted, .ok p⟩ ↔
      ∃ l steps, stateSteps sc name s = ⟨l, .ok steps⟩ ∧
        ∃ taken', claimNames target name taken (Entries.keys steps) = .ok taken' ∧
        ∃ l' more, statesSteps sc taken' rest = ⟨l', .ok more⟩ ∧ l ++ l' = lifted ∧
        steps ++ more = p := by
  rw [statesSteps]
  simp only [Lifting.bind_eq_ok_iff, Lifting.pure_eq_ok_iff, Lifting.ofExcept_eq_ok_iff]
  constructor
  · rintro ⟨l, steps, -, hSteps,
      ⟨-, taken', -, ⟨rfl, hClaim⟩, ⟨l', more, -, hMore, ⟨rfl, rfl⟩, rfl⟩, rfl⟩, rfl⟩
    exact ⟨l, steps, hSteps, taken', hClaim, l', more, hMore, by simp, rfl⟩
  · rintro ⟨l, steps, hSteps, taken', hClaim, l', more, hMore, rfl, rfl⟩
    exact ⟨l, steps, l', hSteps, ⟨[], taken', l', ⟨rfl, hClaim⟩,
      ⟨l', more, [], hMore, ⟨rfl, rfl⟩, by simp⟩, rfl⟩, rfl⟩

/-- The names of all steps differ, and the steps of each state stand among them side by side. -/
theorem statesSteps_eq_ok {taken : List String} {states : List (String × State)}
    {lifted : List (String × Workflow)} {p : StepProgram}
    (h : statesSteps sc taken states = ⟨lifted, .ok p⟩) :
    (Entries.keys p).Nodup ∧ (∀ name ∈ Entries.keys p, name ∉ taken) ∧
      ∀ name s, (name, s) ∈ states → ∃ l steps, stateSteps sc name s = ⟨l, .ok steps⟩ ∧
      steps <:+: p := by
  induction states generalizing taken lifted p with
  | nil =>
    rw [statesSteps] at h
    obtain ⟨-, rfl⟩ := Lifting.pure_eq_ok_iff.mp h
    simp
  | cons entry rest ih =>
    obtain ⟨name, s⟩ := entry
    obtain ⟨l, steps, hHead, taken', hClaim, l', more, hRest, rfl, rfl⟩ :=
      statesSteps_cons_eq_ok_iff.mp h
    obtain ⟨hNodup, hNew, hIn⟩ := ih hRest
    obtain ⟨hNames, hFree⟩ := nodup_append_of_claimNames hClaim hNodup hNew
    rw [Entries.keys, List.map_append]
    refine ⟨hNames, hFree, ?_⟩
    intro k s' hMem
    rcases List.mem_cons.mp hMem with hMem | hMem
    · cases hMem
      exact ⟨l, steps, hHead, (List.prefix_append steps more).isInfix⟩
    · obtain ⟨l', steps', hSteps', hSub⟩ := hIn k s' hMem
      exact ⟨l', steps', hSteps', hSub.trans (List.suffix_append steps more).isInfix⟩

end StepProgram

/-- The document of a workflow has the steps of its states. -/
theorem Workflow.document_eq_ok {w : Workflow} {resolver : Resolver} {id : String} {doc : Json}
    {g : StepProgram.Generator}
    (h : (StepProgram.Generator.fresh resolver id).document w = (.ok doc, g)) :
    ∃ lifted p, w.stepProgram (.top resolver id) = ⟨lifted, .ok p⟩ ∧
      doc = StepProgram.toJson (StepProgram.ident w.root) p := by
  have hResult : (w.stepDocument (.top resolver id)).result = .ok doc := (Prod.mk.inj h).1
  obtain ⟨lifted, p, _, hProgram, hPure, -⟩ := StepProgram.Lifting.bind_eq_ok_iff.mp
    (show w.stepDocument (.top resolver id) = ⟨_, .ok doc⟩ by rw [← hResult])
  obtain ⟨-, rfl⟩ := StepProgram.Lifting.pure_eq_ok_iff.mp hPure
  exact ⟨lifted, p, hProgram, rfl⟩

end Orchestration
