import Orchestration.Proofs.Json.Path

/-!
# Laws of paths

Which paths can be read and which can be written, with what error where not, and how writes at a
path go together with reads and with each other.

* `Json.Reaches`: the value that names lead to, from object to object. `Path.AsksLast` is where the
  last segment of a path is looked up.
* `Path.get_eq_ok_iff_asksLast`, `Path.exists_set_iff`: what is read, and what can be written.
* `Path.get_eq_error_iff`, `Path.set_eq_error_iff`: all ways to fail. They differ in one: a last
  segment that is not there yet cannot be read.
* `Path.set_set`: of two writes at one path the later one counts.
* `Path.get_set_laws`: all laws together.
-/

namespace Orchestration

/-- The value is found in another one by going down from object to object under these names. -/
inductive Json.Reaches : List String → Json → Json → Prop
  | here (v : Json) : Reaches [] v v
  | under {s : String} {rest : List String} {fields : Entries Json} {v u : Json}
      (hField : Entries.get? s fields = some v) (hRest : Reaches rest v u) :
        Reaches (s :: rest) (.obj fields) u

theorem Json.eq_obj_of_fields? {v : Json} {fields : Entries Json} (h : v.fields? = some fields) :
    v = .obj fields := by
  cases v with
  | obj fields' =>
    rw [Json.fields?, Option.some.injEq] at h
    rw [h]
  | _ => cases h

namespace Path

variable {path : String} {payload value value' v u : Json} {segs parents : List String}
  {last s : String} {e : PathError}

/-! ## Ways down -/

theorem follow_eq_ok_iff : follow path segs v = .ok u ↔ Json.Reaches segs v u := by
  induction segs generalizing v with
  | nil =>
    constructor
    · rintro ⟨⟩
      exact .here _
    · rintro ⟨⟩
      rfl
  | cons s rest ih =>
    rw [follow_cons_eq_ok]
    constructor
    · rintro ⟨fields, old, rfl, hField, hRest⟩
      exact .under hField (ih.mp hRest)
    · intro h
      cases h with
      | under hField hRest => exact ⟨_, _, rfl, hField, ih.mpr hRest⟩

/-- Why there is nothing under a segment of a path: an object lacks it, or it
is asked of no object. -/
inductive Blocks (path s : String) : Json → PathError → Prop
  | missing {fields : Entries Json} (hNone : s ∉ Entries.keys fields) :
      Blocks path s (.obj fields) (.notFound path s)
  | noObject {v : Json} (hNone : v.fields? = none) : Blocks path s v (.notTraversable path s)

/-- One of the segments is asked of a value that has nothing under it; those
before it lead there. -/
def Stops (path : String) (segs : List String) (v : Json) (e : PathError) : Prop :=
  ∃ before s after u, segs = before ++ s :: after ∧ Json.Reaches before v u ∧ Blocks path s u e

theorem follow_singleton_eq_error_iff : follow path [s] v = .error e ↔ Blocks path s v e := by
  constructor
  · intro h
    cases v with
    | obj fields =>
      cases hField : Entries.get? s fields with
      | some old => simp [follow, hField] at h
      | none =>
        simp only [follow, hField, Except.error.injEq] at h
        exact h ▸ .missing (Entries.get?_eq_none_iff.mp hField)
    | _ =>
      cases h
      exact .noObject rfl
  · rintro (hNone | hNone)
    · rw [follow, Entries.get?_eq_none_iff.mpr hNone]
    · cases v with
      | obj fields => cases hNone
      | _ => rfl

theorem follow_append (before after : List String) :
    follow path (before ++ after) v = follow path before v >>= follow path after := by
  induction before generalizing v with
  | nil => rfl
  | cons s rest ih =>
    cases v with
    | obj fields =>
      rw [List.cons_append, follow, follow]
      cases Entries.get? s fields with
      | some old => exact ih
      | none => rfl
    | _ => rfl

theorem follow_eq_error_iff : follow path segs v = .error e ↔ Stops path segs v e := by
  constructor
  · intro h
    induction segs generalizing v with
    | nil => cases h
    | cons s rest ih =>
      rw [← List.singleton_append, follow_append, bind_eq_error_iff] at h
      rcases h with h | ⟨old, hFirst, h⟩
      · exact ⟨[], s, rest, v, rfl, .here v, follow_singleton_eq_error_iff.mp h⟩
      · obtain ⟨before, t, after, u, rfl, hReach, hBlocks⟩ := ih h
        obtain ⟨fields, _, rfl, hField, ⟨⟩⟩ := follow_cons_eq_ok.mp hFirst
        exact ⟨s :: before, t, after, u, rfl, .under hField hReach, hBlocks⟩
  · rintro ⟨before, s, after, u, rfl, hReach, hBlocks⟩
    have hHere : follow path (s :: after) u = .error e := by
      rw [← List.singleton_append, follow_append, bind_eq_error_iff]
      exact .inl (follow_singleton_eq_error_iff.mpr hBlocks)
    rw [follow_append, follow_eq_ok_iff.mpr hReach]
    exact hHere

/-! ## Writes along segments -/

theorem put_under {fields : Entries Json} {rest : List String} (hRest : rest ≠ [])
    (hField : Entries.get? s fields = some v) :
    put path value (s :: rest) (.obj fields) =
      (put path value rest v).map fun new => .obj (Entries.insert s new fields) := by
  obtain ⟨t, rest, rfl⟩ := List.exists_cons_of_ne_nil hRest
  rw [put, hField]
  · rfl
  · exact hRest

/-- A write fails where the way to the last segment does, or if the last segment
is asked of no object. -/
theorem put_snoc_eq_error_iff : put path value (parents ++ [last]) v = .error e ↔
    Stops path parents v e ∨ ∃ u, Json.Reaches parents v u ∧ u.fields? = none ∧
      e = .notTraversable path last := by
  rw [← follow_eq_error_iff]
  simp only [← @follow_eq_ok_iff path]
  induction parents generalizing v with
  | nil => cases v <;> simp [put, follow, Json.fields?, eq_comm]
  | cons s rest ih =>
    have hRest : rest ++ [last] ≠ [] := by simp
    obtain ⟨t, below, hBelow⟩ := List.exists_cons_of_ne_nil hRest
    cases v with
    | obj fields =>
      cases hField : Entries.get? s fields with
      | some old =>
        rw [List.cons_append, put_under hRest hField]
        simp only [follow, hField, ← ih]
        cases put path value (rest ++ [last]) old <;> simp [Except.map]
      | none => simp [hBelow, put, follow, hField]
    | _ => simp [hBelow, put, follow]

theorem put_put {v' : Json} (h : put path value segs v = .ok v') :
    put path value' segs v' = put path value' segs v := by
  induction segs generalizing v v' with
  | nil => cases v <;> cases h
  | cons s rest ih =>
    obtain ⟨fields, new, rfl, rfl, hNew⟩ := put_cons_eq_ok.mp h
    rcases hNew with ⟨rfl, rfl⟩ | ⟨old, hField, hNew⟩
    · rw [put, put, Entries.insert_insert]
    · have hRest : rest ≠ [] := by
        rintro rfl
        cases old <;> cases hNew
      rw [put_under hRest hField, put_under hRest (Entries.get?_insert_self s new fields), ih hNew]
      simp only [Entries.insert_insert]

/-! ## At paths -/

/-- The last segment of a path is looked up in this value: the segments before it lead there. -/
def AsksLast (payload : Json) (path last : String) (u : Json) : Prop :=
  ∃ parents, segments path = .ok (parents ++ [last]) ∧ Json.Reaches parents payload u

/-- A path cannot be followed to where its last segment is looked up. -/
def StopsEarly (payload : Json) (path : String) (e : PathError) : Prop :=
  ∃ parents last, segments path = .ok (parents ++ [last]) ∧ Stops path parents payload e

theorem segments_empty : segments "" = .error .empty := rfl

theorem segments_of_ne (h : path ≠ "") :
    ∃ parents last, segments path = .ok (parents ++ [last]) := by
  have hSegments : segments path = .ok (Text.split '.' path) := by
    rw [segments, if_neg (by simpa using h)]
  rcases List.eq_nil_or_concat (Text.split '.' path) with hNil | ⟨parents, last, hLast⟩
  · exact absurd hNil (segments_ne_nil hSegments)
  · exact ⟨parents, last, by rw [hSegments, hLast, List.concat_eq_append]⟩

theorem get_of_segments (h : segments path = .ok segs) :
    get payload path = follow path segs payload := by
  rw [get, h]
  rfl

theorem set_of_segments (h : segments path = .ok segs) :
    set payload value path = put path value segs payload := by
  rw [set, h]
  rfl

theorem asksLast_iff (h : segments path = .ok (parents ++ [last])) :
    AsksLast payload path s u ↔ s = last ∧ Json.Reaches parents payload u := by
  constructor
  · rintro ⟨parents', hSegments, hReach⟩
    obtain ⟨rfl, hLast⟩ := List.append_inj' (Except.ok.inj (hSegments.symm.trans h)) rfl
    cases hLast
    exact ⟨rfl, hReach⟩
  · rintro ⟨rfl, hReach⟩
    exact ⟨parents, h, hReach⟩

theorem stopsEarly_iff (h : segments path = .ok (parents ++ [last])) :
    StopsEarly payload path e ↔ Stops path parents payload e := by
  constructor
  · rintro ⟨parents', last', hSegments, hStops⟩
    obtain ⟨rfl, -⟩ := List.append_inj' (Except.ok.inj (hSegments.symm.trans h)) rfl
    exact hStops
  · exact fun hStops => ⟨parents, last, h, hStops⟩

theorem not_asksLast_empty : ¬ AsksLast payload "" last u := by
  rintro ⟨parents, ⟨⟩, -⟩

theorem not_stopsEarly_empty : ¬ StopsEarly payload "" e := by
  rintro ⟨parents, last, ⟨⟩, -⟩

theorem get_eq_ok_iff_asksLast : get payload path = .ok v ↔
    ∃ last fields, AsksLast payload path last (.obj fields) ∧
      Entries.get? last fields = some v := by
  by_cases hPath : path = ""
  · subst hPath
    simp [get, segments_empty, not_asksLast_empty, bind, Except.bind]
  · obtain ⟨parents, last, hSegments⟩ := segments_of_ne hPath
    rw [get_of_segments hSegments, follow_append, bind_eq_ok_iff]
    simp only [follow_eq_ok_iff, asksLast_iff hSegments]
    constructor
    · rintro ⟨u, hReach, hLast⟩
      cases hLast with
      | under hField hRest =>
        cases hRest
        exact ⟨last, _, ⟨rfl, hReach⟩, hField⟩
    · rintro ⟨_, fields, ⟨rfl, hReach⟩, hField⟩
      exact ⟨_, hReach, .under hField (.here v)⟩

theorem get_eq_error_iff : get payload path = .error e ↔
    path = "" ∧ e = .empty ∨ StopsEarly payload path e ∨
      ∃ last u, AsksLast payload path last u ∧ Blocks path last u e := by
  by_cases hPath : path = ""
  · subst hPath
    simp [get, segments_empty, not_asksLast_empty, not_stopsEarly_empty, bind, Except.bind, eq_comm]
  · obtain ⟨parents, last, hSegments⟩ := segments_of_ne hPath
    rw [get_of_segments hSegments, follow_append, bind_eq_error_iff, follow_eq_error_iff,
      stopsEarly_iff hSegments]
    simp only [follow_eq_ok_iff, follow_singleton_eq_error_iff, asksLast_iff hSegments, hPath,
      false_and, false_or]
    refine or_congr_right ⟨?_, ?_⟩
    · rintro ⟨u, hReach, hBlocks⟩
      exact ⟨last, u, ⟨rfl, hReach⟩, hBlocks⟩
    · rintro ⟨_, u, ⟨rfl, hReach⟩, hBlocks⟩
      exact ⟨u, hReach, hBlocks⟩

theorem set_eq_error_iff : set payload value path = .error e ↔
    path = "" ∧ e = .empty ∨ StopsEarly payload path e ∨
      ∃ last u, AsksLast payload path last u ∧ u.fields? = none ∧
      e = .notTraversable path last := by
  by_cases hPath : path = ""
  · subst hPath
    simp [set, segments_empty, not_asksLast_empty, not_stopsEarly_empty, bind, Except.bind, eq_comm]
  · obtain ⟨parents, last, hSegments⟩ := segments_of_ne hPath
    rw [set_of_segments hSegments, put_snoc_eq_error_iff, stopsEarly_iff hSegments]
    simp only [asksLast_iff hSegments, hPath, false_and, false_or]
    refine or_congr_right ⟨?_, ?_⟩
    · rintro ⟨u, hReach, hNone, rfl⟩
      exact ⟨last, u, ⟨rfl, hReach⟩, hNone, rfl⟩
    · rintro ⟨_, u, ⟨rfl, hReach⟩, hNone, rfl⟩
      exact ⟨u, hReach, hNone, rfl⟩

/-- There is one place where a path asks for its last segment. -/
theorem AsksLast.unique {last' : String} {u' : Json} (h : AsksLast payload path last u)
    (h' : AsksLast payload path last' u') : last = last' ∧ u = u' := by
  obtain ⟨parents, hSegments, hReach⟩ := h
  obtain ⟨rfl, hReach'⟩ := (asksLast_iff hSegments).mp h'
  rw [← @follow_eq_ok_iff path] at hReach hReach'
  exact ⟨rfl, Except.ok.inj (hReach.symm.trans hReach')⟩

theorem AsksLast.not_stopsEarly (h : AsksLast payload path last u) :
    ¬ StopsEarly payload path e := by
  obtain ⟨parents, hSegments, hReach⟩ := h
  rw [stopsEarly_iff hSegments, ← follow_eq_error_iff, follow_eq_ok_iff.mpr hReach]
  simp

/-- What can be written does not depend on what is written. -/
theorem exists_set_iff : (∃ new, set payload value path = .ok new) ↔
    path ≠ "" ∧ ∃ last fields, AsksLast payload path last (.obj fields) := by
  constructor
  · rintro ⟨new, hSet⟩
    -- If the way down stopped or led to no object, the write would have failed.
    have hNoError (e : PathError) : ¬ set payload value path = .error e := by
      simp [hSet]
    have hPath : path ≠ "" := by
      rintro rfl
      cases hSet
    obtain ⟨parents, last, hSegments⟩ := segments_of_ne hPath
    refine ⟨hPath, last, ?_⟩
    cases hParents : follow path parents payload with
    | error e =>
      have hStops : StopsEarly payload path e :=
        ⟨parents, last, hSegments, follow_eq_error_iff.mp hParents⟩
      exact absurd (set_eq_error_iff.mpr (.inr (.inl hStops))) (hNoError e)
    | ok u =>
      have hAsks : AsksLast payload path last u :=
        ⟨parents, hSegments, follow_eq_ok_iff.mp hParents⟩
      cases hFields : u.fields? with
      | none =>
        exact absurd (set_eq_error_iff.mpr (.inr (.inr ⟨last, u, hAsks, hFields, rfl⟩)))
          (hNoError _)
      | some fields => exact ⟨fields, Json.eq_obj_of_fields? hFields ▸ hAsks⟩
  · rintro ⟨hPath, last, fields, hAsks⟩
    cases hSet : set payload value path with
    | ok new => exact ⟨new, rfl⟩
    | error e =>
      rcases set_eq_error_iff.mp hSet with ⟨hEmpty, -⟩ | hStops | ⟨last', u, hAsks', hNone, -⟩
      · exact absurd hEmpty hPath
      · exact absurd hStops hAsks.not_stopsEarly
      · obtain ⟨-, rfl⟩ := hAsks.unique hAsks'
        cases hNone

/-- Whether a write fails, and how, does not depend on what is written. -/
theorem set_error_congr (h : set payload value path = .error e) :
    set payload value' path = .error e :=
  set_eq_error_iff.mpr (set_eq_error_iff.mp h)

/-- Of two writes at one path the later one counts, and if one of them fails both do, alike. -/
theorem set_set :
    (set payload value path >>= fun new => set new value' path) = set payload value' path := by
  cases hSet : set payload value path with
  | error e => exact (set_error_congr hSet).symm
  | ok new =>
    obtain ⟨segs, hSegments, hPut⟩ := set_eq_ok_iff.mp hSet
    calc set new value' path
        = put path value' segs new := set_of_segments hSegments
      _ = put path value' segs payload := put_put hPut
      _ = set payload value' path := (set_of_segments hSegments).symm

/-! ## Laws -/

/-- A value can be written at a path that is not empty if all segments but the last lead to an
object, and so at each path that can be read. What was written is read; writing what was read
changes nothing; of two writes at one path the later one counts. Reading and writing stop
before the last segment with the same error, and a read that fails where a write does not
misses just the last segment. -/
theorem get_set_laws (payload value value' : Json) (path : String) :
    ((∃ new, set payload value path = .ok new) ↔
      path ≠ "" ∧ ∃ parents last fields, segments path = .ok (parents ++ [last]) ∧
        Json.Reaches parents payload (.obj fields)) ∧
    ((∃ v, get payload path = .ok v) → ∃ new, set payload value path = .ok new) ∧
    (∀ new, set payload value path = .ok new → get new path = .ok value) ∧
    (∀ v, get payload path = .ok v → set payload v path = .ok payload) ∧
    (set payload value path >>= fun new => set new value' path) = set payload value' path ∧
    (∀ e, StopsEarly payload path e → get payload path = .error e ∧
      set payload value path = .error e) ∧
    (∀ e, set payload value path = .error e → get payload path = .error e) ∧
    ∀ e, get payload path = .error e → set payload value path = .error e ∨
      ∃ last fields, AsksLast payload path last (.obj fields) ∧ e = .notFound path last := by
  refine ⟨?_, ?_, fun new => get_set, fun v => set_self, set_set, fun e hStops => ⟨?_, ?_⟩,
    fun e hSet => ?_, fun e hGet => ?_⟩
  · rw [exists_set_iff]
    refine and_congr_right fun _ => ⟨?_, ?_⟩
    · rintro ⟨last, fields, parents, hSegments, hReach⟩
      exact ⟨parents, last, fields, hSegments, hReach⟩
    · rintro ⟨parents, last, fields, hSegments, hReach⟩
      exact ⟨last, fields, parents, hSegments, hReach⟩
  · rintro ⟨v, hGet⟩
    obtain ⟨last, fields, hAsks, -⟩ := get_eq_ok_iff_asksLast.mp hGet
    refine exists_set_iff.mpr ⟨?_, last, fields, hAsks⟩
    rintro rfl
    exact not_asksLast_empty hAsks
  · exact get_eq_error_iff.mpr (.inr (.inl hStops))
  · exact set_eq_error_iff.mpr (.inr (.inl hStops))
  · rcases set_eq_error_iff.mp hSet with hEmpty | hStops | ⟨last, u, hAsks, hNone, rfl⟩
    · exact get_eq_error_iff.mpr (.inl hEmpty)
    · exact get_eq_error_iff.mpr (.inr (.inl hStops))
    · exact get_eq_error_iff.mpr (.inr (.inr ⟨last, u, hAsks, .noObject hNone⟩))
  · rcases get_eq_error_iff.mp hGet with hEmpty | hStops | ⟨last, u, hAsks, hBlocks⟩
    · exact .inl (set_eq_error_iff.mpr (.inl hEmpty))
    · exact .inl (set_eq_error_iff.mpr (.inr (.inl hStops)))
    · cases hBlocks with
      | missing hNone => exact .inr ⟨last, _, hAsks, rfl⟩
      | noObject hNone =>
        exact .inl (set_eq_error_iff.mpr (.inr (.inr ⟨last, u, hAsks, hNone, rfl⟩)))

/-- An object that has an empty name in it, and below that another object. -/
def emptyName : Json := .obj [("a", .obj [("", .obj [("b", .int 1)])]), ("c", .null)]

/-- The second segment of `a..b` is empty and leads on; no way leads through the value at `c`. -/
theorem get_set_laws_emptySegment :
    let written : Json := .obj [("a", .obj [("", .obj [("b", .int 2)])]), ("c", .null)]
    set emptyName (.int 2) "a..b" = .ok written ∧ get written "a..b" = .ok (.int 2) ∧
      set written (.int 3) "a..b" = set emptyName (.int 3) "a..b" ∧
      get emptyName "c..b" = .error (.notTraversable "c..b" "") ∧
      set emptyName (.int 2) "c..b" = .error (.notTraversable "c..b" "") := by
  intro written
  have hSet : set emptyName (.int 2) "a..b" = .ok written := rfl
  obtain ⟨-, -, hGet, -, hLater, -⟩ := get_set_laws emptyName (.int 2) (.int 3) "a..b"
  have hStops : StopsEarly emptyName "c..b" (.notTraversable "c..b" "") :=
    ⟨["c", ""], "b", rfl, ["c"], "", [], .null, rfl, .under rfl (.here _), .noObject rfl⟩
  obtain ⟨-, -, -, -, -, hBoth, -⟩ := get_set_laws emptyName (.int 2) (.int 3) "c..b"
  rw [hSet] at hLater
  exact ⟨hSet, hGet _ hSet, hLater, hBoth _ hStops⟩

end Path

end Orchestration
