import Orchestration.Proofs.Json.Path
import Orchestration.Proofs.Run.Alone

/-!
# Maps write back

What a map leaves in the payload when it succeeds, whatever its calls take and
however many are under way.

* `MapBody.Gives`: what the body comes to for an input on its own.
* `MapBody.gives_of_returns`: what an element of a map comes to inside the state,
  the body gives on its own.
* `MapState.exists_set`: results can be written back wherever the inputs could be read.
* `MapState.writesBack`: the array has the results of its elements in their order, and
  nothing else is touched.
-/

namespace Orchestration

variable {limits : Limits} {answers : Answers} {payload : Json}

/-- What the body comes to for an input: what its activity answers, or what its workflow gives on
its own where no call takes longer than it may. -/
def MapBody.Gives (limits : Limits) (answers : Answers) (requestId : String) :
    MapBody → Json → Json → Prop
  | .activity name, input, result => answers name input = .ok result
  | .workflow w, input, result => ∀ caller : Caller, caller.AnswersBy answers →
      caller.InTime limits.activityTimeout → w.Gives limits caller requestId input result

/-- A workflow one level deeper comes to what it comes to on its own, where there is more room. -/
theorem Context.enter_refines (ctx : Context) (limits : Limits) (fuel : Nat) (requestId : String)
    (w : Workflow) (input : Json) :
    (ctx.enter limits fuel w input).Refines answers (w.process limits fuel requestId input) := by
  unfold Context.enter
  split
  · exact Process.Refines.of_fail _ _
  · exact Workflow.walk_refines_of_room fuel w.root input [] (Nat.le_refl fuel)
      (Nat.add_le_add_left (Nat.zero_le _) _) rfl

theorem MapBody.gives_of_returns {ctx : Context} {fuel : Nat} {name : String} (requestId : String)
    {body : MapBody} {input result : Json}
    (h : (body.process (ctx.siteAt limits fuel name) input).Returns answers result) :
    body.Gives limits answers requestId input result := by
  obtain ⟨o, cs, hEval, rfl⟩ := h
  cases body with
  | activity called =>
    obtain ⟨v, hAnswer, rfl, -⟩ := Site.eval_dispatch_eq_some.mp hEval
    exact hAnswer
  | workflow w =>
    intro caller hCaller hTime
    have hAlone : (w.process limits fuel requestId input).eval answers = some (o, cs) :=
      Context.enter_refines ctx limits fuel requestId w input _ hEval
    exact Workflow.gives_of_returns (hCaller.answer_respond hTime) ⟨o, cs, hAlone, rfl⟩

/-! ## Reading and writing the array -/

/-- The inputs of a map are read off its array, one for each element. -/
theorem MapState.elements_of_inputs {m : MapState} {inputs : List Json}
    (h : m.inputs payload = .ok inputs) :
    ∃ elements, Path.get payload m.array = .ok (.arr elements) ∧
      inputs.length = elements.length := by
  obtain ⟨elements, hGet, ⟨-, rfl⟩ | ⟨-, shared, -, rfl⟩⟩ := MapState.inputs_eq_ok_iff.mp h
  · exact ⟨inputs, hGet, rfl⟩
  · exact ⟨elements, hGet, List.length_map _⟩

/-- Where the inputs could be read, results can be written back. -/
theorem MapState.exists_set {m : MapState} {inputs : List Json} (h : m.inputs payload = .ok inputs)
    (results : Json) : ∃ p, Path.set payload results m.array = .ok p := by
  obtain ⟨elements, hGet, -⟩ := MapState.elements_of_inputs h
  exact Path.exists_set hGet results

/-! ## What a map leaves -/

/-- If a map succeeds, its path leads to the results of its body for its inputs, in their order and
as many as there were elements; all paths apart from it read as before, be it a value or an error;
and all objects of the payload have the same names in the same order. Writing back never fails. -/
theorem MapState.writesBack (limits : Limits) (ctx : Context) (fuel : Nat) (name : String)
    {caller : Caller} {answers : Answers} (hAnswers : caller.AnswersBy answers) (m : MapState)
    (payload : Json) (requestId : String) :
    let env : Environment := ⟨caller, limits.activityTimeout⟩
    let run := m.transition (ctx.siteAt limits fuel name) limits payload
    (∀ w o, run.Succeeds env w o → ∃ inputs elements results,
      m.inputs payload = .ok inputs ∧ Path.get payload m.array = .ok (.arr elements) ∧
      Path.get o.payload m.array = .ok (.arr results) ∧ results.length = elements.length ∧
      List.Forall₂ (m.body.Gives limits answers requestId) inputs results ∧
      (∀ path, Path.AreApart path m.array → Path.get o.payload path = Path.get payload path) ∧
      ∀ segs, Path.namesAt segs o.payload = Path.namesAt segs payload) ∧
    ∀ inputs, m.inputs payload = .ok inputs → ∀ results, ∃ p, Path.set payload results m.array =
        .ok p := by
  intro env run
  refine ⟨fun w o ⟨steps, w', hSettle⟩ => ?_, fun inputs hInputs => MapState.exists_set hInputs⟩
  have hKnown := hAnswers.known limits.activityTimeout
  have hRegular : run.Regular :=
    MapState.regular_transition (Context.regular_siteAt ctx limits fuel name) m payload
  obtain ⟨cs, hEval⟩ :=
    Strand.settle_meets hKnown steps (Process.start_meets hKnown run _ w hRegular.meets_evalPost)
      hSettle o rfl
  obtain ⟨inputs, os, v, hInputs, hAll, hSet, rfl⟩ := MapState.eval_transition_eq_some.mp hEval
  obtain ⟨elements, hGet, hCount⟩ := MapState.elements_of_inputs hInputs
  have hEach := forall₂_of_evalAll hAll
  rw [List.forall₂_map_left_iff] at hEach
  refine ⟨inputs, elements, os.map Outcome.payload, hInputs, hGet, Path.get_set hSet, ?_,
    ?_, ?_, ?_⟩
  · rw [List.length_map, ← hEach.length_eq, hCount]
  · rw [List.forall₂_map_right_iff]
    exact hEach.imp fun input o ⟨ds, hOwn⟩ => MapBody.gives_of_returns requestId ⟨o, ds, hOwn, rfl⟩
  · exact fun path hApart => Path.get_set_of_apart hApart hSet
  · exact Path.namesAt_set rfl rfl hGet hSet

/-- Runs a workflow of one step for each element, one element at a time. -/
def eachNested : MapState :=
  ⟨.workflow ⟨"t", [("t", .task ⟨"f", none⟩)]⟩, "a.xs", none, some 1, none⟩

/-- An array below the top, between other fields. -/
def twoBelow : Json :=
  .obj [("first", .null),
    ("a", .obj [("x", .bool true), ("xs", .arr [.int 1, .int 2]), ("b", .obj [])])]

/-- The first call takes the whole timeout; the path `a.x` is no beginning of `a.xs`. -/
theorem MapState.writesBack_twoBelow :
    let caller := hundredfold.caller fun past => if past.isEmpty then 5 else 2
    let run :=
      eachNested.transition ((Context.top "r").siteAt ⟨1, some 5, none⟩ 3 "m") ⟨1, some 5,
        none⟩ twoBelow
    caller.AnswersBy hundredfold ∧ ∃ o, run.Succeeds ⟨caller, some 5⟩ ⟨0, []⟩ o ∧
      Path.get o.payload "a.xs" = .ok (.arr [.int 100, .int 200]) ∧
      Path.get o.payload "a.x" = Path.get twoBelow "a.x" ∧
      Path.get o.payload "a.c" = Path.get twoBelow "a.c" ∧
      Path.namesAt ["a"] o.payload = Path.namesAt ["a"] twoBelow := by
  intro caller run
  have hAnswers : caller.AnswersBy hundredfold := hundredfold.caller_answersBy _
  have hTime : caller.InTime (some 5) := hundredfold.caller_inTime fun _ => by split <;> decide
  have hRegular : run.Regular := MapState.regular_transition (Context.regular_siteAt _ _ _ _) _ _
  have hRun :
      run.Succeeds ⟨caller, some 5⟩ ⟨0, []⟩
        ⟨.obj [("first", .null),
          ("a", .obj [("x", .bool true), ("xs", .arr [.int 100, .int 200]), ("b", .obj [])])],
          []⟩ :=
    (hRegular.succeeds_iff (hAnswers.answer_respond hTime)).mpr ⟨_, rfl⟩
  obtain ⟨hLeft, -⟩ :=
    MapState.writesBack ⟨1, some 5, none⟩ (.top "r") 3 "m" hAnswers eachNested twoBelow "r"
  obtain ⟨inputs, elements, results, -, -, -, -, -, hApart, hNames⟩ := hLeft _ _ hRun
  have hSegments : Path.segments "a.xs" = .ok ["a", "xs"] := rfl
  refine ⟨hAnswers, _, hRun, rfl, hApart "a.x" ?_, hApart "a.c" ?_, hNames ["a"]⟩
  · rintro _ _ ⟨⟩ ⟨⟩
    decide
  · rintro _ _ ⟨⟩ ⟨⟩
    decide

end Orchestration
