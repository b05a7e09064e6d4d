import Orchestration.Proofs.Basic
import Orchestration.Proofs.Run.Evaluation
import Orchestration.Target.Fragment

/-!
# Names and addresses in documents

What all encodings share: names that are taken for fragments differ, an activity is called at its
address, and behind its address is the activity.
-/

namespace Orchestration

variable {resolver : Resolver}

/-! ## Names -/

/-- Names can be taken if none of them is taken, or stands twice. -/
theorem claimNames_eq_ok {target : Target} {state : String} {taken taken' names : List String}
    (h : claimNames target state taken names = .ok taken') :
    names.Nodup ∧ (∀ name ∈ names, name ∉ taken) ∧ taken' = names.reverse ++ taken := by
  induction names generalizing taken with
  | nil =>
    cases h
    simp
  | cons name rest ih =>
    rw [claimNames] at h
    split at h
    · cases h
    · rename_i hNew
      rw [List.contains_iff_mem] at hNew
      obtain ⟨hNodup, hDisjoint, rfl⟩ := ih h
      refine ⟨List.nodup_cons.mpr ⟨fun hMem => ?_, hNodup⟩, ?_, by simp⟩
      · exact hDisjoint name hMem List.mem_cons_self
      · exact List.forall_mem_cons.mpr ⟨hNew, fun n hn => fun hTaken =>
          hDisjoint n hn (List.mem_cons_of_mem _ hTaken)⟩

/-- Names that are taken one after the other differ. -/
theorem nodup_append_of_claimNames {target : Target} {state : String}
    {taken taken' names more : List String} (h : claimNames target state taken names = .ok taken')
    (hNodup : more.Nodup) (hNew : ∀ name ∈ more, name ∉ taken') :
    (names ++ more).Nodup ∧ ∀ name ∈ names ++ more, name ∉ taken := by
  obtain ⟨hNames, hFree, rfl⟩ := claimNames_eq_ok h
  simp only [List.mem_append, List.mem_reverse, not_or] at hNew
  refine ⟨List.nodup_append.mpr ⟨hNames, hNodup, ?_⟩, ?_⟩
  · rintro a ha b hb rfl
    exact (hNew a hb).1 ha
  · intro name hName
    rcases List.mem_append.mp hName with hName | hName
    · exact hFree name hName
    · exact (hNew name hName).2

/-! ## Addresses -/

theorem addressOf_eq_ok_iff {activity address : String} :
    addressOf resolver activity = .ok address ↔ resolver.resolve activity = some address := by
  unfold addressOf
  cases resolver.resolve activity <;> simp

/-- Different activities have different addresses. -/
def Resolver.Distinct (resolver : Resolver) : Prop :=
  ∀ a b address, resolver.resolve a = some address → resolver.resolve b = some address → a = b

/-! ## Services -/

/-- What comes back from a resource for an input. -/
abbrev Service := String → Json → Option Json

open Classical in
/-- The activities behind their addresses. -/
noncomputable def Resolver.serve (resolver : Resolver) (answers : Answers) : Service :=
  fun address data =>
    if h : ∃ activity, resolver.resolve activity = some address then
      (answers h.choose data).toOption
    else none

/-- Behind the address of an activity is that activity. -/
def Service.Serves (service : Service) (resolver : Resolver) (answers : Answers) : Prop :=
  ∀ activity address data v, resolver.resolve activity = some address →
    answers activity data = .ok v → service address data = some v

theorem Resolver.serves_serve (resolver : Resolver) (answers : Answers) (h : resolver.Distinct) :
    Service.Serves (resolver.serve answers) resolver answers := by
  intro activity address data v hAddress hAnswer
  have hSome : ∃ a, resolver.resolve a = some address := ⟨activity, hAddress⟩
  rw [Resolver.serve, dif_pos hSome, h _ _ _ hSome.choose_spec hAddress, hAnswer]
  rfl

end Orchestration
