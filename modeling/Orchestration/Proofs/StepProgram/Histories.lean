import Orchestration.Proofs.StepProgram.Lifting
import Orchestration.Target.Compiler

/-!
# What a compiler for step programs keeps

A compiler keeps the bodies that it lifted until their documents are made. What it keeps is what its
calls leave behind, failed calls included.

* `Compiler.after`: a history of calls.
* `Compiler.FailsCleanly`: each failed call of a history leaves the compiler as it was.
* `Compiler.pending_after`: a failed generation leaves the bodies that it met, and a failed
  generation of the maps loses them all. If no failed call does harm, the compiler keeps the bodies
  of the workflows that were generated since the maps were, and makes their documents.
-/

namespace Orchestration

/-! ## Bodies that are lifted before a failure -/

namespace StepProgram

/-- The bodies that are lifted are the first ones at the sites, and all of them
if there is a result. -/
def Lifting.Meets {α : Type} (l : Lifting α) (sites : List (String × Workflow)) : Prop :=
  l.lifted <+: sites ∧ ∀ a, l.result = .ok a → l.lifted = sites

namespace Lifting.Meets

variable {α β : Type} {sites sites' : List (String × Workflow)}

theorem pure (a : α) : (Pure.pure a : Lifting α).Meets [] :=
  ⟨List.prefix_rfl, fun _ _ => rfl⟩

theorem ofExcept (x : Except CompileError α) : (Lifting.ofExcept x).Meets [] :=
  ⟨List.prefix_rfl, fun _ _ => rfl⟩

theorem lift (id : String) (body : Workflow) : (Lifting.lift id body).Meets [(id, body)] :=
  ⟨List.prefix_rfl, fun _ _ => rfl⟩

theorem bind {x : Lifting α} {f : α → Lifting β} (hx : x.Meets sites)
    (hf : ∀ a, (f a).Meets sites') : (x >>= f).Meets (sites ++ sites') := by
  obtain ⟨lifted, result⟩ := x
  obtain ⟨hPrefix, hAll⟩ := hx
  cases result with
  | error e => exact ⟨hPrefix.trans (List.prefix_append _ _), fun b h => by cases h⟩
  | ok a =>
    obtain rfl : lifted = sites := hAll a rfl
    exact ⟨(List.prefix_append_right_inj _).mpr (hf a).1, fun b h => congrArg _ ((hf a).2 b h)⟩

/-- Steps after the last lifting lift nothing. -/
theorem bind_pure {x : Lifting α} {f : α → β} (hx : x.Meets sites) :
    (x >>= fun a => Pure.pure (f a)).Meets sites := by
  have hBind := hx.bind fun a => pure (f a)
  rwa [List.append_nil] at hBind

end Lifting.Meets

variable {sc : Scope}

theorem liftedMap_meets (name : String) (m : MapState) (next : Option String) (body : Workflow) :
    (liftedMap sc name m next body).Meets [(liftedId sc name, body)] :=
  (Lifting.Meets.lift _ _).bind_pure

theorem mapSteps_meets (name : String) (m : MapState) :
    (mapSteps sc name m).Meets (mapSite sc name m) := by
  rw [mapSteps, mapSite]
  cases m.body with
  | activity activity => exact .ofExcept _
  | workflow body => exact liftedMap_meets name m m.next body

mutual

theorem statesSteps_meets (sc : Scope) (taken : List String) (states : List (String × State)) :
    (statesSteps sc taken states).Meets (statesSites sc states) := by
  cases states with
  | nil => exact .pure []
  | cons e rest =>
    obtain ⟨name, s⟩ := e
    rw [statesSteps, statesSites]
    refine (stateSteps_meets sc name s).bind fun steps => ?_
    refine (Lifting.Meets.ofExcept _).bind fun taken' => ?_
    exact (statesSteps_meets sc taken' rest).bind_pure

theorem stateSteps_meets (sc : Scope) (name : String) (s : State) :
    (stateSteps sc name s).Meets (stateSites sc name s) := by
  cases s with
  | task t => exact .ofExcept _
  | «switch» s => exact .pure _
  | map m => exact mapSteps_meets name m
  | «repeat» r => exact .ofExcept _
  | loop l => exact .ofExcept _
  | parallel p =>
    obtain ⟨branches, next⟩ := p
    rw [stateSteps, stateSites]
    exact (branchesSteps_meets sc name branches).bind_pure

theorem branchesSteps_meets (sc : Scope) (name : String) (branches : List Branch) :
    (branchesSteps sc name branches).Meets (branchesSites sc name branches) := by
  cases branches with
  | nil => exact .pure []
  | cons b rest =>
    rw [branchesSteps, branchesSites]
    refine (branchSteps_meets (sc.inBranch _) name b).bind fun steps => ?_
    refine (Lifting.Meets.ofExcept _).bind fun branch => ?_
    exact (branchesSteps_meets sc name rest).bind_pure

theorem branchSteps_meets (sc : Scope) (name : String) (b : Branch) :
    (branchSteps sc name b).Meets (branchSites sc b) := by
  obtain ⟨bname, root, states⟩ := b
  rw [branchSteps, branchSites]
  cases Entries.get? root states with
  | none => exact .ofExcept _
  | some s =>
    cases s with
    | task t => exact (statesSteps_meets sc reserved states).bind_pure
    | map m =>
      dsimp only
      cases Branch.elementWorkflow ⟨bname, ⟨root, states⟩⟩ with
      | some element => exact (liftedMap_meets root m none element).bind_pure
      | none => exact (mapSteps_meets root m).bind_pure
    | _ => exact .ofExcept _

end

theorem stepDocument_meets (sc : Scope) (w : Workflow) :
    (w.stepDocument sc).Meets (w.mapSites sc) :=
  (statesSteps_meets sc reserved w.states).bind_pure

end StepProgram

/-! ## Histories -/

namespace Compiler

open StepProgram

variable {resolver : Resolver} {id : String} {pending : Entries Workflow}

/-- A call that may change what a compiler keeps. -/
inductive Call where
  | generate (w : Workflow)
  | generateMaps

/-- The compiler after a call, also after one that fails. -/
def perform (c : Compiler) : Call → Compiler
  | .generate w => (c.generate w).2
  | .generateMaps => c.generateMaps.2

def Fails (c : Compiler) : Call → Prop
  | .generate w => ∃ e, (c.generate w).1 = .error e
  | .generateMaps => ∃ e, c.generateMaps.1 = .error e

/-- The compiler after calls, in order. -/
def after (c : Compiler) (calls : List Call) : Compiler := calls.foldl perform c

/-- Each call that fails leaves the compiler as it was. -/
def FailsCleanly (c : Compiler) : List Call → Prop
  | [] => True
  | call :: rest => (c.Fails call → c.perform call = c) ∧ (c.perform call).FailsCleanly rest

/-- The bodies that wait for their documents after one more call, if failed calls do no harm. -/
def awaited (resolver : Resolver) (id : String) (sites : List (String × Workflow)) :
    Call → List (String × Workflow)
  | .generate w =>
    match (w.stepDocument (.top resolver id)).result with
    | .ok _ => sites ++ w.mapSites (.top resolver id)
    | .error _ => sites
  | .generateMaps => []

/-- A compiler for step programs that keeps these bodies. -/
def keeping (resolver : Resolver) (id : String) (pending : Entries Workflow) : Compiler :=
  ⟨.workflows, resolver, id, pending⟩

theorem generate_keeping (w : Workflow) : (keeping resolver id pending).generate w =
    (Json.yaml <$> (w.stepDocument (.top resolver id)).result,
      keeping resolver id (pending.insertAll (w.stepDocument (.top resolver id)).lifted)) := by
  have hResult : ((keeping resolver id pending).generate w).1 =
      ((w.stepDocument (.top resolver id)).result >>= fun v => .ok v.yaml) := rfl
  refine Prod.ext (hResult.trans ?_) rfl
  cases (w.stepDocument (.top resolver id)).result <;> rfl

theorem generateMaps_keeping : (keeping resolver id pending).generateMaps =
    (List.map (fun d => (d.1, d.2.yaml)) <$>
      liftedDocuments resolver (keeping resolver id pending).steps.depth pending,
      keeping resolver id []) := by
  have hTexts : ∀ documents : List (String × Json),
      documents.mapM (fun d => do pure (d.1, ← Target.workflows.text d.2)) =
        Except.ok (documents.map fun d => (d.1, d.2.yaml)) :=
    fun documents => List.mapM_pure
  refine Prod.ext ?_ rfl
  show (liftedDocuments resolver _ pending >>= fun documents =>
    documents.mapM fun d => do pure (d.1, ← Target.workflows.text d.2)) = _
  cases liftedDocuments resolver (keeping resolver id pending).steps.depth pending with
  | error e => rfl
  | ok documents => exact hTexts documents

theorem perform_keeping (hPending : pending.keys.Nodup) (call : Call) : ∃ pending',
    pending'.keys.Nodup ∧ (keeping resolver id pending).perform call =
      keeping resolver id pending' := by
  cases call with
  | generate w =>
    refine ⟨pending.insertAll (w.stepDocument (.top resolver id)).lifted, ?_, ?_⟩
    · exact Entries.nodup_keys_insertAll hPending _
    · rw [perform, generate_keeping]
  | generateMaps =>
    refine ⟨[], List.nodup_nil, ?_⟩
    rw [perform, generateMaps_keeping]

theorem after_keeping (hPending : pending.keys.Nodup) (calls : List Call) : ∃ pending',
    pending'.keys.Nodup ∧
      (keeping resolver id pending).after calls = keeping resolver id pending' := by
  induction calls generalizing pending with
  | nil => exact ⟨pending, hPending, rfl⟩
  | cons call rest ih =>
    obtain ⟨pending', hPending', hPerform⟩ := @perform_keeping resolver id _ hPending call
    rw [after, List.foldl_cons, hPerform]
    exact ih hPending'

/-- A generation leaves the bodies that it met, and changes nothing just where they wait already. -/
theorem exists_met (hPending : pending.keys.Nodup) (w : Workflow) :
    ∃ met, met <+: w.mapSites (.top resolver id) ∧
      ((keeping resolver id pending).generate w).2 = keeping resolver id (pending.insertAll met) ∧
      (((keeping resolver id pending).generate w).2 = keeping resolver id pending ↔
        ∀ site ∈ Entries.ofWrites met, site ∈ pending) := by
  rw [generate_keeping]
  refine ⟨_, (stepDocument_meets (.top resolver id) w).1, rfl, ?_⟩
  rw [← Entries.insertAll_eq_self_iff hPending]
  constructor
  · exact fun hSame => congrArg (fun c => c.steps.pending) hSame
  · exact fun hSame => congrArg (keeping resolver id) hSame

/-- A failed generation of the maps has had some and leaves none. -/
theorem generateMaps_error {e : CompileError}
    (h : (keeping resolver id pending).generateMaps.1 = .error e) :
    pending ≠ [] ∧ (keeping resolver id pending).generateMaps.2 = keeping resolver id [] := by
  refine ⟨?_, by rw [generateMaps_keeping]⟩
  rintro rfl
  rw [generateMaps_keeping] at h
  cases h

/-- What is kept after one more call that does no harm if it fails. -/
theorem perform_awaited {sites : List (String × Workflow)} {call : Call}
    (h : (keeping resolver id (Entries.ofWrites sites)).Fails call →
      (keeping resolver id (Entries.ofWrites sites)).perform call =
        keeping resolver id (Entries.ofWrites sites)) :
    (keeping resolver id (Entries.ofWrites sites)).perform call =
      keeping resolver id (Entries.ofWrites (awaited resolver id sites call)) := by
  cases call with
  | generateMaps =>
    rw [perform, generateMaps_keeping, awaited]
    rfl
  | generate w =>
    rw [awaited]
    cases hResult : (w.stepDocument (.top resolver id)).result with
    | error e =>
      refine h ⟨e, ?_⟩
      rw [generate_keeping, hResult]
      rfl
    | ok v =>
      rw [perform, generate_keeping, (stepDocument_of_result hResult).1, Entries.ofWrites,
        ← Entries.insertAll_append, Entries.ofWrites]

theorem after_awaited {sites : List (String × Workflow)} {calls : List Call}
    (h : (keeping resolver id (Entries.ofWrites sites)).FailsCleanly calls) :
    (keeping resolver id (Entries.ofWrites sites)).after calls =
      keeping resolver id (Entries.ofWrites (calls.foldl (awaited resolver id) sites)) := by
  induction calls generalizing sites with
  | nil => rfl
  | cons call rest ih =>
    obtain ⟨hCall, hRest⟩ := h
    rw [perform_awaited hCall] at hRest
    rw [after, List.foldl_cons, perform_awaited hCall, List.foldl_cons]
    exact ih hRest

/-- The documents that are made are those of the maps from the sites on. -/
theorem documentsOf_generateMaps {sites : List (String × Workflow)} {texts : List (String × String)}
    (h : (keeping resolver id (Entries.ofWrites sites)).generateMaps.1 = .ok texts) :
    ∃ docs, DocumentsOf resolver (sites.flatMap (Workflow.mapsFrom resolver)) docs ∧
      texts = docs.map fun d => (d.1, d.2.yaml) := by
  rw [generateMaps_keeping] at h
  cases hDocs : liftedDocuments resolver (keeping resolver id (Entries.ofWrites sites)).steps.depth
      (Entries.ofWrites sites) with
  | error e =>
    rw [hDocs] at h
    cases h
  | ok docs =>
    rw [hDocs] at h
    cases h
    refine ⟨docs, DocumentsOf.of_pending (liftedDocuments_documentsOf (fun site hSite => ?_) hDocs),
      rfl⟩
    exact @Generator.levels_le_depth ⟨resolver, id, Entries.ofWrites sites⟩ _ hSite

/-- The compiler for step programs after a history of calls. -/
def history (resolver : Resolver) (id : String) (calls : List Call) : Compiler :=
  (fresh .workflows resolver id).after calls

/-- A failed generation leaves the bodies that it met before the failure, so that it does no harm
just where these wait already. A failed generation of the maps loses all bodies that waited. After a
history in which no failed call does harm, the bodies that wait are those of the workflows that were
generated since the maps were, and their documents are the ones that are made next. -/
theorem pending_after (resolver : Resolver) (id : String) (calls : List Call) :
    (∀ w e, ((history resolver id calls).generate w).1 = .error e →
      ∃ met, met <+: w.mapSites (.top resolver id) ∧
        ((history resolver id calls).generate w).2 =
          keeping resolver id ((history resolver id calls).steps.pending.insertAll met) ∧
        (((history resolver id calls).generate w).2 = history resolver id calls ↔
          ∀ site ∈ Entries.ofWrites met, site ∈ (history resolver id calls).steps.pending)) ∧
    (∀ e, (history resolver id calls).generateMaps.1 = .error e →
      (history resolver id calls).steps.pending ≠ [] ∧
        (history resolver id calls).generateMaps.2 = keeping resolver id []) ∧
    ((fresh .workflows resolver id).FailsCleanly calls →
      ∃ sites, sites = calls.foldl (awaited resolver id) [] ∧
        history resolver id calls = keeping resolver id (Entries.ofWrites sites) ∧
        ∀ texts, (history resolver id calls).generateMaps.1 = .ok texts →
          ∃ docs, DocumentsOf resolver (sites.flatMap (Workflow.mapsFrom resolver)) docs ∧
            texts = docs.map fun d => (d.1, d.2.yaml)) := by
  obtain ⟨pending, hPending, hAfter⟩ :=
    @after_keeping resolver id [] List.nodup_nil calls
  have hHistory : history resolver id calls = keeping resolver id pending := hAfter
  refine ⟨?_, ?_, fun hClean => ?_⟩
  · intro w e _
    rw [hHistory]
    exact exists_met hPending w
  · intro e hError
    rw [hHistory] at hError ⊢
    exact generateMaps_error hError
  · have hKept : history resolver id calls =
        keeping resolver id (Entries.ofWrites (calls.foldl (awaited resolver id) [])) :=
      @after_awaited resolver id [] calls hClean
    refine ⟨_, rfl, hKept, fun texts hTexts => ?_⟩
    rw [hKept] at hTexts
    exact documentsOf_generateMaps hTexts

end Compiler

/-! ## A generation that fails after a map, and a body that cannot be generated -/

/-- A map, and a task whose activity has no address. -/
def mapThenNowhere : Workflow :=
  ⟨"m",
    [("m", .map ⟨.workflow (oneCall "g"), "xs", none, none, some "t"⟩),
      ("t", .task ⟨"nowhere", none⟩)]⟩

/-- The same map, and one that calls such an activity for its elements. -/
def mapThenMapNowhere : Workflow :=
  ⟨"m",
    [("m", .map ⟨.workflow (oneCall "g"), "xs", none, none, some "n"⟩),
      ("n", mapOver "ys" "nowhere")]⟩

namespace Compiler

/-- After the second workflow the failure of the first does no harm, as the body that
it meets waits already. -/
theorem pending_after_mapThenMapNowhere :
    ((history threeAddresses "flow" [.generate mapThenMapNowhere]).generate mapThenNowhere).1 =
        .error (.unresolved "nowhere") ∧
      (history threeAddresses "flow" [.generate mapThenMapNowhere]).generateMaps.1 =
        .error (.unresolved "nowhere") ∧
      (∃ met, met <+: mapThenNowhere.mapSites (.top threeAddresses "flow") ∧
        ((history threeAddresses "flow" [.generate mapThenMapNowhere]).generate mapThenNowhere).2 =
          keeping threeAddresses "flow" ((history threeAddresses "flow"
            [.generate mapThenMapNowhere]).steps.pending.insertAll met)) ∧
      (history threeAddresses "flow" [.generate mapThenMapNowhere]).generateMaps.2 =
        keeping threeAddresses "flow" [] ∧
      history threeAddresses "flow" [.generate mapThenMapNowhere] =
        keeping threeAddresses "flow" [("flow_m", oneCall "g"), ("flow_n", oneCall "nowhere")] := by
  obtain ⟨hGenerate, hMaps, hKept⟩ :=
    pending_after threeAddresses "flow" [.generate mapThenMapNowhere]
  obtain ⟨met, hPrefix, hAfter, -⟩ := hGenerate mapThenNowhere _ rfl
  have hClean :
      (fresh .workflows threeAddresses "flow").FailsCleanly [.generate mapThenMapNowhere] := by
    refine ⟨?_, trivial⟩
    rintro ⟨e, hError⟩
    cases hError
  obtain ⟨sites, rfl, hHistory, -⟩ := hKept hClean
  exact ⟨rfl, rfl, ⟨met, hPrefix, hAfter⟩, (hMaps _ rfl).2, hHistory⟩

/-- A failed generation leaves a body behind, and a failed generation of the maps loses two. -/
theorem not_failsCleanly_mapThenNowhere :
    mapThenNowhere.validate = .ok () ∧ mapThenMapNowhere.validate = .ok () ∧
      (fresh .workflows threeAddresses "flow").Fails (.generate mapThenNowhere) ∧
      (history threeAddresses "flow" [.generate mapThenNowhere]).pendingIds = ["flow_m"] ∧
      (history threeAddresses "flow" [.generate mapThenMapNowhere]).Fails .generateMaps ∧
      (history threeAddresses "flow" [.generate mapThenMapNowhere]).pendingIds =
        ["flow_m", "flow_n"] ∧
      (history threeAddresses "flow" [.generate mapThenMapNowhere, .generateMaps]).pendingIds = [] ∧
      ¬ (fresh .workflows threeAddresses "flow").FailsCleanly [.generate mapThenNowhere] ∧
      ¬ (fresh .workflows threeAddresses "flow").FailsCleanly [.generate mapThenMapNowhere,
        .generateMaps] := by
  refine ⟨rfl, rfl, ⟨_, rfl⟩, rfl, ⟨_, rfl⟩, rfl, rfl, fun h => ?_, fun h => ?_⟩
  · exact absurd (congrArg pendingIds (h.1 ⟨_, rfl⟩)) (by decide)
  · exact absurd (congrArg pendingIds (h.2.1 ⟨_, rfl⟩)) (by decide)

end Compiler

end Orchestration
