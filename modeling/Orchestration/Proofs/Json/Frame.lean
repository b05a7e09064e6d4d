import Orchestration.Proofs.Json.Lens

/-!
# What a write at a path touches

A write in place goes down into a payload that is kept. Where it fails, on whatever segment, the
payload stands as before; else it stands as a write on a copy would have it.

* `Path.setInPlace_eq`: writes in place and writes on a copy.
* `Path.namesAt_put_of_outside`: the names of all objects that a write does not replace.
* `Path.setInPlace_frame`: all that a write leaves alone.
-/

namespace Orchestration.Path

variable {path : String} {payload value v v' after : Json} {segs parents : List String}
  {last : String}

/-! ## Writing in place -/

/-- A write in place ends as one on a copy does, and a failure leaves the value as it was. -/
theorem putInPlace_eq (path : String) (value : Json) (segs : List String) (v : Json) :
    putInPlace path value segs v =
      match put path value segs v with
      | .ok new => (new, .ok ())
      | .error e => (v, .error e) := by
  fun_induction putInPlace path value segs v with
  | case1 v => cases v <;> rfl
  | case2 s fields => rfl
  | case3 s rest fields hRest old hField below outcome hBelow ih =>
    rw [put_under hRest hField]
    rw [hBelow] at ih
    cases hPut : put path value rest old with
    | ok new =>
      rw [hPut] at ih
      cases ih
      rfl
    | error e =>
      -- The object has again under the segment what it had before.
      rw [hPut] at ih
      cases ih
      rw [Entries.insert_eq_self hField]
      rfl
  | case4 s rest fields hRest hNone =>
    rw [put, hNone]
    exact hRest
  | case5 s rest v _ hNoObject =>
    cases v with
    | obj fields => exact absurd rfl (hNoObject fields)
    | _ => cases rest <;> rfl

theorem setInPlace_eq (payload value : Json) (path : String) :
    setInPlace payload value path =
      match set payload value path with
      | .ok new => (new, .ok ())
      | .error e => (payload, .error e) := by
  cases hSegments : segments path with
  | error e => simp only [setInPlace, set, hSegments, bind, Except.bind]
  | ok segs =>
    rw [set_of_segments hSegments, setInPlace, hSegments]
    exact putInPlace_eq path value segs payload

/-! ## Names -/

/-- Objects that are not part of what was written have the names that they had, in the same
order. Only the one that the last segment was written into may have one name more, which is that
segment and stands last. -/
theorem namesAt_put_of_outside (h : put path value (parents ++ [last]) v = .ok v') :
    ∀ place, ¬ parents ++ [last] <+: place → namesAt place v' = namesAt place v ∨
      place = parents ∧ ∃ names, namesAt place v = some names ∧ last ∉ names ∧
        namesAt place v' = some (names ++ [last]) := by
  induction parents generalizing v v' with
  | nil =>
    intro place hOutside
    obtain ⟨fields, new, rfl, rfl, -⟩ := put_cons_eq_ok.mp h
    cases place with
    | nil =>
      by_cases hThere : last ∈ Entries.keys fields
      · exact .inl (congrArg some (by rw [Entries.keys_insert, if_pos hThere]))
      · exact .inr ⟨rfl, _, rfl, hThere, congrArg some (by rw [Entries.keys_insert, if_neg hThere])⟩
    | cons t below =>
      have hOther : t ≠ last := by
        rintro rfl
        exact hOutside ⟨below, rfl⟩
      rw [namesAt, namesAt, Entries.get?_insert_of_ne hOther]
      exact .inl rfl
  | cons s rest ih =>
    intro place hOutside
    obtain ⟨fields, new, rfl, rfl, ⟨hNil, -⟩ | ⟨old, hField, hPut⟩⟩ := put_cons_eq_ok.mp h
    · simp at hNil
    cases place with
    | nil =>
      have hThere : s ∈ Entries.keys fields := List.mem_map_of_mem (Entries.mem_of_get? hField)
      exact .inl (congrArg some (by rw [Entries.keys_insert, if_pos hThere]))
    | cons t below =>
      by_cases hSame : t = s
      · subst hSame
        have hBelow : ¬ rest ++ [last] <+: below := by simpa [List.cons_prefix_cons] using hOutside
        simpa only [namesAt, Entries.get?_insert_self, hField, Option.bind_some, List.cons.injEq,
          true_and] using ih hPut below hBelow
      · rw [namesAt, namesAt, Entries.get?_insert_of_ne hSame]
        exact .inl rfl

/-! ## What is left alone -/

/-- A write that fails leaves the payload as it was. One that is made leaves what a write on a copy
gives: all paths apart from it read as before, be it a value or an error; all objects that it does
not replace have the same names in the same order, but for one name that the object with the last
segment may have more, at its end. -/
theorem setInPlace_frame {outcome : Except PathError Unit}
    (h : setInPlace payload value path = (after, outcome)) :
    (∀ e, outcome = .error e → set payload value path = .error e ∧ after = payload) ∧
    (outcome = .ok () → set payload value path = .ok after ∧
      (∀ other, AreApart other path → get after other = get payload other) ∧
      ∃ parents last, segments path = .ok (parents ++ [last]) ∧
        ∀ place, ¬ parents ++ [last] <+: place → namesAt place after = namesAt place payload ∨
          place = parents ∧ ∃ names, namesAt place payload = some names ∧ last ∉ names ∧
            namesAt place after = some (names ++ [last])) := by
  rw [setInPlace_eq] at h
  cases hSet : set payload value path with
  | error e =>
    rw [hSet] at h
    cases h
    exact ⟨fun e' hError => ⟨congrArg Except.error (Except.error.inj hError), rfl⟩, nofun⟩
  | ok new =>
    rw [hSet] at h
    cases h
    obtain ⟨parents, last, hSegments⟩ := segments_of_ne (exists_set_iff.mp ⟨_, hSet⟩).1
    have hPut : put path value (parents ++ [last]) payload = .ok after := by
      rw [← set_of_segments hSegments, hSet]
    exact ⟨nofun, fun _ =>
      ⟨rfl, fun other hApart => get_set_of_apart hApart hSet, parents, last, hSegments,
        namesAt_put_of_outside hPut⟩⟩

/-- The path `a.b` has the characters of `a.bc` in it, but not its segments. -/
theorem setInPlace_frame_newName :
    let payload : Json := .obj [("a", .obj [("bc", .int 1), ("d", .null)]), ("e", .arr [])]
    let after : Json :=
      .obj [("a", .obj [("bc", .int 1), ("d", .null), ("b", .int 2)]), ("e", .arr [])]
    setInPlace payload (.int 2) "a.b" = (after, .ok ()) ∧ get after "a.bc" = get payload "a.bc" ∧
      namesAt [] after = namesAt [] payload ∧ namesAt ["a"] after = some ["bc", "d", "b"] ∧
      setInPlace payload (.int 2) "e.b" = (payload, .error (.notTraversable "e.b" "b")) := by
  intro payload after
  have hWrite : setInPlace payload (.int 2) "a.b" = (after, .ok ()) := rfl
  obtain ⟨-, hMade⟩ := setInPlace_frame hWrite
  obtain ⟨-, hApart, parents, last, hSegments, hNames⟩ := hMade rfl
  obtain ⟨rfl, hLast⟩ : parents = ["a"] ∧ [last] = ["b"] :=
    List.append_inj'
      (Except.ok.inj (hSegments.symm.trans (rfl : segments "a.b" = .ok (["a"] ++ ["b"])))) rfl
  cases hLast
  have hTop := (hNames [] (by decide)).resolve_right (by simp)
  have hBelow := (hNames ["a"] (by decide)).resolve_left (by decide)
  obtain ⟨-, names, hBefore, -, hAfter⟩ := hBelow
  cases hBefore
  refine ⟨hWrite, hApart "a.bc" ?_, hTop, hAfter, ?_⟩
  · rintro _ _ ⟨⟩ ⟨⟩
    decide
  · obtain ⟨after', outcome, hFails⟩ : ∃ after' outcome, setInPlace payload (.int 2) "e.b" =
        (after', outcome) :=
      ⟨_, _, rfl⟩
    have hError : outcome = .error (.notTraversable "e.b" "b") := (congrArg Prod.snd hFails).symm
    obtain ⟨hUnmade, -⟩ := setInPlace_frame hFails
    rw [hFails, (hUnmade _ hError).2, hError]

end Orchestration.Path
