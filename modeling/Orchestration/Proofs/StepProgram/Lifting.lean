import Mathlib.Data.List.Flatten
import Mathlib.Data.List.Forall2
import Orchestration.Proofs.StepProgram.Sites
import Orchestration.Workflow.Validation

/-!
# Lifted bodies and their documents

The id of a lifted body is put together from names, with underscores between them, and a body that
is lifted under an id that is taken replaces the one that was there. So two maps may share one
document, or two documents one id.

* `FaithfulLifting` says that no map loses its document: ids differ, each call finds the document of
  its own map's body, and there are as many documents as maps.
* `Workflow.faithfulLifting_iff`: the documents that are generated are so if and only if
  the ids of the maps differ.
-/

namespace Orchestration

namespace StepProgram

variable {resolver : Resolver}

/-- The document is the one that a generator which starts with the id of the
site makes of its body. -/
def DocumentOf (resolver : Resolver) (site : String × Workflow) (doc : String × Json) : Prop :=
  doc.1 = site.1 ∧ ((Generator.fresh resolver site.1).document site.2).1 = .ok doc.2

/-- The calls in a document are those of the sites, and each finds one document,
that of its own body. -/
def CallsResolved (resolver : Resolver) (docs : List (String × Json)) (doc : Json)
    (sites : List (String × Workflow)) : Prop :=
  List.Forall₂ (fun call site => call = Json.str site.1 ∧ (docs.map Prod.fst).count site.1 = 1 ∧
    ∃ d ∈ docs, DocumentOf resolver site d) doc.mapCalls sites

/-- The documents of the bodies that were lifted from a workflow are those that its maps need. -/
structure FaithfulLifting (resolver : Resolver) (id : String) (w : Workflow) (doc : Json)
    (docs : List (String × Json)) : Prop where
  /-- No two documents have one id. -/
  distinct : (docs.map Prod.fst).Nodup
  /-- The calls of the main document find the documents of their maps. -/
  main : CallsResolved resolver docs doc (w.mapSites (.top resolver id))
  /-- So do the calls of each document, which is the document of one of the maps. -/
  lifted : ∀ d ∈ docs, ∃ site ∈ w.liftedMaps resolver id, DocumentOf resolver site d ∧
    CallsResolved resolver docs d.2 (site.2.mapSites (.top resolver site.1))
  /-- There are as many documents as maps. -/
  count : docs.length = (w.liftedMaps resolver id).length

/-! ## Which documents are made -/

/-- The documents are those of some of the sites, each at most as often as it stands there, and of
all of them if the ids of the sites differ. -/
def DocumentsOf (resolver : Resolver) (sites : List (String × Workflow))
    (docs : List (String × Json)) :
    Prop :=
  ∃ made, List.Forall₂ (DocumentOf resolver) made docs ∧ made.Subperm sites ∧
    ((sites.map Prod.fst).Nodup → made = sites)

namespace DocumentsOf

variable {sites sites' : List (String × Workflow)} {docs docs' : List (String × Json)}

theorem nil : DocumentsOf resolver [] [] :=
  ⟨[], .nil, List.Subperm.refl _, fun _ => rfl⟩

theorem cons {site : String × Workflow} {doc : String × Json} (hDoc : DocumentOf resolver site doc)
    (h : DocumentsOf resolver sites docs) : DocumentsOf resolver (site :: sites) (doc :: docs) := by
  obtain ⟨made, hMade, hSub, hAll⟩ := h
  refine ⟨site :: made, .cons hDoc hMade, (List.subperm_cons site).mpr hSub, ?_⟩
  intro hNodup
  rw [List.map_cons, List.nodup_cons] at hNodup
  rw [hAll hNodup.2]

theorem append (h : DocumentsOf resolver sites docs) (h' : DocumentsOf resolver sites' docs') :
    DocumentsOf resolver (sites ++ sites') (docs ++ docs') := by
  obtain ⟨made, hMade, hSub, hAll⟩ := h
  obtain ⟨made', hMade', hSub', hAll'⟩ := h'
  refine ⟨made ++ made', List.rel_append hMade hMade', hSub.append hSub', ?_⟩
  intro hNodup
  rw [List.map_append, List.nodup_append] at hNodup
  rw [hAll hNodup.1, hAll' hNodup.2.1]

/-- Bodies that wait under their ids stand for the sites that they were lifted at. -/
theorem of_pending
    (h : DocumentsOf resolver ((pendingAfter [] sites).flatMap (Workflow.mapsFrom resolver)) docs) :
    DocumentsOf resolver (sites.flatMap (Workflow.mapsFrom resolver)) docs := by
  obtain ⟨made, hMade, hSub, hAll⟩ := h
  refine ⟨made, hMade, hSub.trans ?_, ?_⟩
  · obtain ⟨kept, hPerm, hKept⟩ := Entries.insertAll_subperm [] sites
    exact ⟨kept.flatMap (Workflow.mapsFrom resolver), hPerm.flatMap_right _, hKept.flatMap _⟩
  · intro hNodup
    have hHeads : sites.Sublist (sites.flatMap (Workflow.mapsFrom resolver)) := by
      have hSingle := List.Sublist.flatMap_right sites (f := fun site => [site])
        (g := Workflow.mapsFrom resolver) fun site _ => (List.nil_sublist _).cons_cons site
      rwa [List.flatMap_singleton'] at hSingle
    have hPending : pendingAfter [] sites = sites :=
      Entries.ofWrites_of_nodup (hNodup.sublist (hHeads.map Prod.fst))
    rw [hPending] at hAll
    exact hAll hNodup

end DocumentsOf

theorem stepDocument_of_result {sc : Scope} {w : Workflow} {doc : Json}
    (h : (w.stepDocument sc).result = .ok doc) :
    (w.stepDocument sc).lifted = w.mapSites sc ∧
      doc.mapCalls = (w.mapSites sc).map fun site => Json.str site.1 := by
  apply Workflow.stepDocument_eq_ok
  rw [← h]

theorem mem_of_mem_pendingAfter {sites : List (String × Workflow)} {site : String × Workflow}
    (h : site ∈ pendingAfter [] sites) : site ∈ sites :=
  (Entries.insertAll_subperm [] sites).subset h

/-- The document of a body and those that are made in the passes below it. -/
theorem documentsOf_mapsFrom {passes : Nat} {site : String × Workflow} {doc : Json}
    {inner : List (String × Json)} (hLevels : site.2.levels ≤ passes + 1)
    (hDoc : (site.2.stepDocument (.top resolver site.1)).result = .ok doc)
    (hInner : liftedDocuments resolver passes
      (pendingAfter [] (site.2.stepDocument (.top resolver site.1)).lifted) = .ok inner)
    (hBelow : ∀ {bodies : Entries Workflow} {docs : List (String × Json)},
      (∀ body ∈ bodies, body.2.levels ≤ passes) →
        liftedDocuments resolver passes bodies = .ok docs →
        DocumentsOf resolver (bodies.flatMap (Workflow.mapsFrom resolver)) docs) :
    DocumentsOf resolver (Workflow.mapsFrom resolver site) ((site.1, doc) :: inner) := by
  have hOwn : DocumentOf resolver site (site.1, doc) := ⟨rfl, hDoc⟩
  rw [(stepDocument_of_result hDoc).1] at hInner
  refine DocumentsOf.cons hOwn ?_
  rw [Workflow.liftedMaps_eq]
  apply DocumentsOf.of_pending
  refine hBelow ?_ hInner
  intro body hMem
  have hLt := Workflow.levels_lt_of_mem_mapSites (mem_of_mem_pendingAfter hMem)
  omega

/-- The passes that the bodies are deep give the documents of all maps from them on. -/
theorem liftedDocuments_documentsOf {passes : Nat} {bodies : Entries Workflow}
    {docs : List (String × Json)} (hLevels : ∀ site ∈ bodies, site.2.levels ≤ passes)
    (h : liftedDocuments resolver passes bodies = .ok docs) :
    DocumentsOf resolver (bodies.flatMap (Workflow.mapsFrom resolver)) docs := by
  -- One pass makes the documents of all bodies, so the bodies are gone through inside the pass.
  induction passes generalizing bodies docs with
  | zero =>
    cases bodies with
    | nil =>
      cases h
      exact .nil
    | cons site rest =>
      have hLe := hLevels site List.mem_cons_self
      have hPos := site.2.levels_pos
      omega
  | succ passes ih =>
    rw [liftedDocuments] at h
    obtain ⟨parts, hParts, hPure⟩ := Orchestration.bind_eq_ok_iff.mp h
    cases Orchestration.pure_eq_ok_iff.mp hPure
    clear h hPure
    induction bodies generalizing parts with
    | nil =>
      cases hParts
      exact .nil
    | cons site rest ihRest =>
      rw [List.mapM_cons] at hParts
      obtain ⟨part, hPart, hTail⟩ := Orchestration.bind_eq_ok_iff.mp hParts
      obtain ⟨more, hMore, hPure⟩ := Orchestration.bind_eq_ok_iff.mp hTail
      cases Orchestration.pure_eq_ok_iff.mp hPure
      obtain ⟨doc, hDoc, hInside⟩ := Orchestration.bind_eq_ok_iff.mp hPart
      obtain ⟨inner, hInner, hPure⟩ := Orchestration.bind_eq_ok_iff.mp hInside
      cases Orchestration.pure_eq_ok_iff.mp hPure
      have hHead := documentsOf_mapsFrom (hLevels site List.mem_cons_self) hDoc hInner ih
      rw [List.flatMap_cons, List.flatten_cons]
      exact hHead.append
        (ihRest (fun s hs => hLevels s (List.mem_cons_of_mem _ hs)) more hMore)

theorem Generator.levels_le_depth {g : Generator} {site : String × Workflow}
    (h : site ∈ g.pending) :
    site.2.levels ≤ g.depth := by
  have hMem : site.2.levels ∈ g.pending.map fun body => body.2.levels := List.mem_map_of_mem h
  rw [depth, List.foldl_max]
  exact Nat.le_trans (List.le_max?_getD_of_mem hMem) (Nat.le_max_right _ _)

/-- What a generator keeps of a workflow becomes the documents of the maps of the workflow. -/
theorem Generator.drain_documentsOf {id : String} {w : Workflow} {doc : Json} {g : Generator}
    {docs : List (String × Json)} (hDoc : (fresh resolver id).document w = (.ok doc, g))
    (hDocs : g.drain.1 = .ok docs) : DocumentsOf resolver (w.liftedMaps resolver id) docs := by
  obtain ⟨hResult, hTaken⟩ := Prod.mk.inj hDoc
  have hPending : g.pending = pendingAfter [] (w.mapSites (.top resolver id)) := by
    rw [← hTaken, (stepDocument_of_result hResult).1]
    rfl
  have hResolver : g.resolver = resolver := by
    rw [← hTaken]
    rfl
  rw [Workflow.liftedMaps_eq]
  apply DocumentsOf.of_pending
  rw [← hPending]
  refine liftedDocuments_documentsOf (fun site => Generator.levels_le_depth) ?_
  rw [← hResolver]
  exact hDocs

/-! ## When no map loses its document -/

theorem documentOf_fst {sites : List (String × Workflow)} {docs : List (String × Json)}
    (h : List.Forall₂ (DocumentOf resolver) sites docs) :
    docs.map Prod.fst = sites.map Prod.fst := by
  induction h with
  | nil => rfl
  | cons hDoc _ ih => rw [List.map_cons, List.map_cons, hDoc.1, ih]

/-- The calls of a document find theirs among the documents of sites whose ids differ. -/
theorem callsResolved_of_mem {sites : List (String × Workflow)} {docs : List (String × Json)}
    (h : List.Forall₂ (DocumentOf resolver) sites docs) (hNodup : (docs.map Prod.fst).Nodup)
    {id : String} {w : Workflow} {doc : Json}
    (hDoc : ((Generator.fresh resolver id).document w).1 = .ok doc)
    (hSites : ∀ site ∈ w.mapSites (.top resolver id), site ∈ sites) :
    CallsResolved resolver docs doc (w.mapSites (.top resolver id)) := by
  have hCalls : doc.mapCalls = (w.mapSites (.top resolver id)).map fun site => Json.str site.1 :=
    (stepDocument_of_result hDoc).2
  rw [CallsResolved, hCalls, List.forall₂_map_left_iff, List.forall₂_same]
  intro site hSite
  obtain ⟨d, hd, hOf⟩ := exists_of_forall₂ h (hSites site hSite)
  refine ⟨rfl, ?_, d, hd, hOf⟩
  rw [← hOf.1]
  exact List.count_eq_one_of_mem hNodup (List.mem_map_of_mem hd)

end StepProgram

namespace Workflow

open StepProgram

/-- The documents of a workflow and of the bodies lifted from it are those that its maps need if and
only if the ids of the maps differ. -/
theorem faithfulLifting_iff {resolver : Resolver} {id : String} {w : Workflow} {doc : Json}
    {g : Generator} {docs : List (String × Json)}
    (hDoc : (Generator.fresh resolver id).document w = (.ok doc, g))
    (hDocs : g.drain.1 = .ok docs) :
    FaithfulLifting resolver id w doc docs ↔ ((w.liftedMaps resolver id).map Prod.fst).Nodup := by
  obtain ⟨made, hMade, hSub, hAll⟩ := Generator.drain_documentsOf hDoc hDocs
  constructor
  · intro hFaithful
    -- Some of the sites have their documents made, and by the count it is all of them.
    have hLength : made.length = docs.length := hMade.length_eq
    have hPerm : made.Perm (w.liftedMaps resolver id) := by
      apply hSub.perm_of_length_le
      exact Nat.le_of_eq (hFaithful.count.symm.trans hLength.symm)
    rw [← (hPerm.map Prod.fst).nodup_iff, ← documentOf_fst hMade]
    exact hFaithful.distinct
  · intro hNodup
    obtain rfl := hAll hNodup
    have hDistinct : (docs.map Prod.fst).Nodup := by
      rw [documentOf_fst hMade]
      exact hNodup
    refine ⟨hDistinct, ?_, ?_, hMade.length_eq.symm⟩
    · have hResult : ((Generator.fresh resolver id).document w).1 = .ok doc := by rw [hDoc]
      apply callsResolved_of_mem hMade hDistinct hResult
      exact fun site hSite => mem_liftedMaps_of_mem_mapSites hSite
    · intro d hd
      obtain ⟨site, hSite, hOf⟩ := exists_of_forall₂ hMade.flip hd
      refine ⟨site, hSite, hOf, ?_⟩
      apply callsResolved_of_mem hMade hDistinct hOf.2
      intro inside hInside
      exact mem_liftedMaps_trans hSite (mem_liftedMaps_of_mem_mapSites hInside)

end Workflow

/-! ## A map beside a branch with a map -/

/-- One call. -/
def oneCall (activity : String) : Workflow := ⟨"x", [("x", .task ⟨activity, none⟩)]⟩

/-- A map that runs a workflow of one call for each element. -/
def mapOver (array activity : String) : State :=
  .map ⟨.workflow (oneCall activity), array, none, none, none⟩

/-- A branch that comes to a map, and a map of this name after it. -/
def besideBranch (name : String) : Workflow :=
  ⟨"p",
    [("p", .parallel ⟨[⟨some "k", ⟨"t", [("t", .task ⟨"f", some "m"⟩), ("m", mapOver "xs" "g")]⟩⟩],
      some name⟩), (name, mapOver "ys" "h")]⟩

/-- Addresses of the activities. -/
def threeAddresses : Resolver := ⟨none, [("f", "/f"), ("g", "/g"), ("h", "/h")]⟩

theorem liftedMaps_besideBranch (name : String) :
    (besideBranch name).liftedMaps threeAddresses "flow" =
      [("flow_p_k_m", oneCall "g"), ("flow" ++ "_" ++ StepProgram.ident name, oneCall "h")] := by
  have hSites : (besideBranch name).mapSites (.top threeAddresses "flow") =
      [("flow_p_k_m", oneCall "g"), ("flow" ++ "_" ++ StepProgram.ident name, oneCall "h")] := rfl
  have hInside : ∀ id activity, Workflow.mapsFrom threeAddresses (id, oneCall activity) =
      [(id, oneCall activity)] := by
    intro id activity
    rw [Workflow.mapsFrom, Workflow.liftedMaps_eq]
    rfl
  rw [Workflow.liftedMaps_eq, hSites, List.flatMap_cons, List.flatMap_singleton, hInside, hInside]
  rfl

/-- A map at `n` has an id of its own, and so both maps have their documents. -/
theorem Workflow.faithfulLifting_besideBranch :
    ∃ doc g docs, (StepProgram.Generator.fresh threeAddresses "flow").document (besideBranch "n") =
        (.ok doc, g) ∧ g.drain.1 = .ok docs ∧
      StepProgram.FaithfulLifting threeAddresses "flow" (besideBranch "n") doc docs := by
  refine ⟨_, _, _, rfl, rfl, (Workflow.faithfulLifting_iff rfl rfl).mpr ?_⟩
  rw [liftedMaps_besideBranch]
  decide

/-- A map at `p_k_m` has the id of the map in the branch, which loses its document. -/
theorem Workflow.not_faithfulLifting_besideBranch :
    (besideBranch "p_k_m").validate = .ok () ∧
      ∃ doc g docs, (StepProgram.Generator.fresh threeAddresses "flow").document
          (besideBranch "p_k_m") = (.ok doc, g) ∧ g.drain.1 = .ok docs ∧
        ¬ StepProgram.FaithfulLifting threeAddresses "flow" (besideBranch "p_k_m") doc docs := by
  refine ⟨rfl, _, _, _, rfl, rfl, ?_⟩
  intro hFaithful
  have hCount := hFaithful.count
  rw [liftedMaps_besideBranch] at hCount
  exact absurd hCount (by decide)

end Orchestration
