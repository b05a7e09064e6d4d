import Mathlib.Data.List.Infix
import Orchestration.Json.Path
import Orchestration.Proofs.Basic

/-!
# Reading and writing at paths

A write at a path touches only its own place. Two paths are apart if neither of their lists of
segments starts with the other; that `a.b` and `a.bc` have characters in common does not matter.

* `Path.get_set`: what was written is what is read.
* `Path.get_set_of_apart`: paths apart read the same as before, be it a value or an error.
* `Path.namesAt_set`: where the path led to a value that is no object, all objects that paths lead
  to have the same names in the same order as before, if the new value is no object either.
* `Path.exists_set`: a path that can be read can be written.
* `Path.set_self`: writing what was read changes nothing.
-/

namespace Orchestration.Path

/-- The first of the segments, and what the write does with the object that it is asked of. -/
theorem put_cons_eq_ok {path s : String} {rest : List String} {value v v' : Json} :
    put path value (s :: rest) v = .ok v' ↔
      ∃ fields new, v = .obj fields ∧ v' = .obj (Entries.insert s new fields) ∧
        (rest = [] ∧ new = value ∨ ∃ old, Entries.get? s fields = some old ∧
          put path value rest old = .ok new) := by
  cases v with
  | obj fields =>
    cases rest with
    | nil => simp [put, eq_comm]
    | cons s' rest =>
      cases hOld : Entries.get? s fields with
      | none => simp [put, hOld]
      | some old =>
        simp only [put, hOld, bind_eq_ok_iff, pure_eq_ok_iff]
        constructor
        · rintro ⟨new, hNew, rfl⟩
          exact ⟨fields, new, rfl, rfl, .inr ⟨old, hOld, hNew⟩⟩
        · rintro ⟨_, new, ⟨⟩, rfl, ⟨⟨⟩, -⟩ | ⟨_, hThere, hNew⟩⟩
          cases hOld.symm.trans hThere
          exact ⟨new, hNew, rfl⟩
  | _ => cases rest <;> simp [put]

theorem follow_cons_eq_ok {path s : String} {rest : List String} {v u : Json} :
    follow path (s :: rest) v = .ok u ↔
      ∃ fields old, v = .obj fields ∧ Entries.get? s fields = some old ∧
        follow path rest old = .ok u := by
  cases v with
  | obj fields => cases hOld : Entries.get? s fields <;> simp [follow, hOld]
  | _ => simp [follow]

/-! ## Along segments -/

theorem follow_put {path path' : String} {value : Json} {segs : List String} :
    ∀ {v v' : Json}, put path value segs v = .ok v' → follow path' segs v' = .ok value := by
  induction segs with
  | nil =>
    intro v v' h
    cases v <;> cases h
  | cons s rest ih =>
    intro v v' h
    obtain ⟨fields, new, -, rfl, hNew⟩ := put_cons_eq_ok.mp h
    refine follow_cons_eq_ok.mpr ⟨_, new, rfl, Entries.get?_insert_self s new fields, ?_⟩
    rcases hNew with ⟨rfl, rfl⟩ | ⟨old, -, hNew⟩
    · rfl
    · exact ih hNew

/-- Neither of two lists of segments starts with the other. -/
def Apart (segs segs' : List String) : Prop := ¬ segs <+: segs' ∧ ¬ segs' <+: segs

instance (segs segs' : List String) : Decidable (Apart segs segs') :=
  inferInstanceAs (Decidable (_ ∧ _))

theorem follow_put_of_apart {path path' : String} {value : Json} {segs : List String} :
    ∀ {other : List String} {v v' : Json}, Apart other segs → put path value segs v = .ok v' →
      follow path' other v' = follow path' other v := by
  -- Both go down the same way until their segments differ, and there the write is at another name.
  induction segs with
  | nil =>
    intro other v v' hApart _
    exact absurd List.nil_prefix hApart.2
  | cons s rest ih =>
    intro other v v' hApart h
    obtain ⟨fields, new, rfl, rfl, hNew⟩ := put_cons_eq_ok.mp h
    cases other with
    | nil => exact absurd List.nil_prefix hApart.1
    | cons t other =>
      by_cases hSame : t = s
      · subst hSame
        have hRest : Apart other rest := by simpa [Apart, List.cons_prefix_cons] using hApart
        rcases hNew with ⟨rfl, -⟩ | ⟨old, hOld, hNew⟩
        · exact absurd List.nil_prefix hRest.2
        · rw [follow, follow, Entries.get?_insert_self, hOld]
          exact ih hRest hNew
      · rw [follow, follow, Entries.get?_insert_of_ne hSame]

/-- A way that can be read to its end can be written, whatever there is at its end. -/
theorem exists_put_of_follow {path path' : String} (value : Json) {segs : List String}
    (hNonempty : segs ≠ []) :
    ∀ {v u : Json}, follow path' segs v = .ok u → ∃ v', put path value segs v = .ok v' := by
  induction segs with
  | nil => exact absurd rfl hNonempty
  | cons s rest ih =>
    intro v u h
    obtain ⟨fields, old, rfl, hOld, hRest⟩ := follow_cons_eq_ok.mp h
    cases rest with
    | nil => exact ⟨_, put_cons_eq_ok.mpr ⟨fields, value, rfl, rfl, .inl ⟨rfl, rfl⟩⟩⟩
    | cons s' rest =>
      obtain ⟨new, hNew⟩ := ih (List.cons_ne_nil s' rest) hRest
      exact ⟨_, put_cons_eq_ok.mpr ⟨fields, new, rfl, rfl, .inr ⟨old, hOld, hNew⟩⟩⟩

/-- A value written where it was read leaves everything as it is. -/
theorem put_self {path path' : String} {segs : List String} (hNonempty : segs ≠ []) :
    ∀ {v u : Json}, follow path' segs v = .ok u → put path u segs v = .ok v := by
  induction segs with
  | nil => exact absurd rfl hNonempty
  | cons s rest ih =>
    intro v u h
    obtain ⟨fields, old, rfl, hOld, hRest⟩ := follow_cons_eq_ok.mp h
    refine put_cons_eq_ok.mpr ⟨fields, old, rfl, by rw [Entries.insert_eq_self hOld], ?_⟩
    cases rest with
    | nil =>
      cases hRest
      exact .inl ⟨rfl, rfl⟩
    | cons s' rest => exact .inr ⟨old, hOld, ih (List.cons_ne_nil s' rest) hRest⟩

/-! ## The names on the way -/

/-- The names of the object that the segments lead to, in order; there are none if
they lead to no object. -/
def namesAt : List String → Json → Option (List String)
  | [], v => v.fields?.map Entries.keys
  | s :: rest, .obj fields => (Entries.get? s fields).bind (namesAt rest)
  | _ :: _, _ => none

theorem namesAt_of_fields?_eq_none {v : Json} (h : v.fields? = none) (segs : List String) :
    namesAt segs v = none := by
  cases segs with
  | nil => rw [namesAt, h, Option.map_none]
  | cons s rest =>
    cases v with
    | obj fields => cases h
    | _ => rfl

/-- Writing no object where there was none keeps the names of all objects, at every level. -/
theorem namesAt_put {path path' : String} {value old : Json} (hValue : value.fields? = none)
    (hOld : old.fields? = none) {segs : List String} :
    ∀ {v v' : Json}, follow path' segs v = .ok old → put path value segs v = .ok v' →
      ∀ other : List String, namesAt other v' = namesAt other v := by
  induction segs with
  | nil =>
    intro v v' _ h
    cases v <;> cases h
  | cons s rest ih =>
    intro v v' hFollow h other
    obtain ⟨fields, new, rfl, rfl, hNew⟩ := put_cons_eq_ok.mp h
    obtain ⟨_, old', ⟨⟩, hGet, hRest⟩ := follow_cons_eq_ok.mp hFollow
    have hBelow : ∀ below, namesAt below new = namesAt below old' := by
      intro below
      rcases hNew with ⟨rfl, rfl⟩ | ⟨_, hThere, hPut⟩
      · cases hRest
        rw [namesAt_of_fields?_eq_none hValue, namesAt_of_fields?_eq_none hOld]
      · cases hGet.symm.trans hThere
        exact ih hRest hPut below
    cases other with
    | nil =>
      have hName : s ∈ Entries.keys fields := by
        by_contra hNone
        cases hGet.symm.trans (Entries.get?_eq_none_iff.mpr hNone)
      simp only [namesAt, Json.fields?, Option.map_some]
      rw [Entries.keys_insert, if_pos hName]
    | cons t below =>
      by_cases hSame : t = s
      · subst hSame
        rw [namesAt, namesAt, Entries.get?_insert_self, hGet]
        exact hBelow below
      · rw [namesAt, namesAt, Entries.get?_insert_of_ne hSame]

/-! ## At paths -/

/-- Two paths whose lists of segments are apart. The empty path, which has none, is
apart from every path. -/
def AreApart (p q : String) : Prop :=
  ∀ segs segs', segments p = .ok segs → segments q = .ok segs' → Apart segs segs'

theorem get_eq_ok_iff {payload v : Json} {path : String} :
    get payload path = .ok v ↔ ∃ segs, segments path = .ok segs ∧
      follow path segs payload = .ok v := by
  rw [get, bind_eq_ok_iff]

theorem set_eq_ok_iff {payload value v : Json} {path : String} :
    set payload value path = .ok v ↔ ∃ segs, segments path = .ok segs ∧
      put path value segs payload = .ok v := by
  rw [set, bind_eq_ok_iff]

theorem segments_ne_nil {path : String} {segs : List String}
    (h : segments path = .ok segs) : segs ≠ [] := by
  unfold segments at h
  split at h
  · cases h
  · cases h
    exact fun hNil => Text.pieces_ne_nil '.' path.toList (List.map_eq_nil_iff.mp hNil)

theorem get_set {payload value v : Json} {path : String} (h : set payload value path = .ok v) :
    get v path = .ok value := by
  obtain ⟨segs, hSegments, hPut⟩ := set_eq_ok_iff.mp h
  exact get_eq_ok_iff.mpr ⟨segs, hSegments, follow_put hPut⟩

theorem set_self {payload v : Json} {path : String} (h : get payload path = .ok v) :
    set payload v path = .ok payload := by
  obtain ⟨segs, hSegments, hFollow⟩ := get_eq_ok_iff.mp h
  exact set_eq_ok_iff.mpr ⟨segs, hSegments, put_self (segments_ne_nil hSegments) hFollow⟩

theorem get_set_of_apart {payload value v : Json} {path other : String}
    (hApart : AreApart other path) (h : set payload value path = .ok v) :
    get v other = get payload other := by
  obtain ⟨segs, hSegments, hPut⟩ := set_eq_ok_iff.mp h
  cases hOther : segments other with
  | error e => simp only [get, hOther, bind, Except.bind]
  | ok segs' =>
    have hSame : follow other segs' v = follow other segs' payload :=
      follow_put_of_apart (hApart segs' segs hOther hSegments) hPut
    simpa only [get, hOther, bind, Except.bind] using hSame

theorem namesAt_set {payload value old v : Json} {path : String} (hValue : value.fields? = none)
    (hOld : old.fields? = none) (hGet : get payload path = .ok old)
    (h : set payload value path = .ok v) (other : List String) :
    namesAt other v = namesAt other payload := by
  obtain ⟨segs, hSegments, hPut⟩ := set_eq_ok_iff.mp h
  obtain ⟨_, hSame, hFollow⟩ := get_eq_ok_iff.mp hGet
  cases hSegments.symm.trans hSame
  exact namesAt_put hValue hOld hFollow hPut other

theorem exists_set {payload v : Json} {path : String} (h : get payload path = .ok v)
    (value : Json) :
    ∃ v', set payload value path = .ok v' := by
  obtain ⟨segs, hSegments, hFollow⟩ := get_eq_ok_iff.mp h
  obtain ⟨v', hPut⟩ : ∃ v', put path value segs payload = .ok v' :=
    exists_put_of_follow value (segments_ne_nil hSegments) hFollow
  exact ⟨v', set_eq_ok_iff.mpr ⟨segs, hSegments, hPut⟩⟩

end Orchestration.Path
