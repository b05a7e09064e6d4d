import Mathlib.Data.List.Perm.Subperm
import Orchestration.Json.Order
import Orchestration.Proofs.Basic

/-!
# Equality of JSON values

The order of fields does not matter for the equality of values, and neither does on which side a
value stands. An object with a name twice would not even be equal to itself.

* `Json.same_refl`, `Json.same_symm`: equality of well-formed values is reflexive and symmetric.
-/

namespace Orchestration

theorem Binary64.compare_swap (x y : Binary64) : (x.compare y).swap = y.compare x := by
  rw [Binary64.compare, Binary64.compare, ← Std.OrientedCmp.eq_swap]

namespace Json

/-! ## Fields -/

theorem wellFormedFields_iff {fields : List (String × Json)} :
    WellFormedFields fields ↔ ∀ e ∈ fields, e.2.WellFormed := by
  induction fields with
  | nil => simp [WellFormedFields]
  | cons e rest ih =>
    obtain ⟨k, v⟩ := e
    rw [WellFormedFields, ih, List.forall_mem_cons]

theorem sameFields_iff {as bs : List (String × Json)} :
    sameFields as bs = true ↔ ∀ e ∈ as, ∃ b, Entries.get? e.1 bs = some b ∧ e.2.same b = true := by
  induction as with
  | nil => simp [sameFields]
  | cons e rest ih =>
    obtain ⟨k, a⟩ := e
    rw [sameFields, Bool.and_eq_true, ih, List.forall_mem_cons]
    cases Entries.get? k bs <;> simp

/-! ## Reflexivity -/

mutual

theorem same_refl : ∀ {v : Json}, v.WellFormed → v.same v = true
  | .null, _ => rfl
  | .bool b, _ => beq_self_eq_true b
  | .int n, _ => beq_self_eq_true n
  | .float x, _ => by simp [same, Binary64.compare]
  | .str s, _ => beq_self_eq_true s
  | .arr items, h => sameItems_refl h
  | .obj fields, h => by
    rw [same, beq_self_eq_true, Bool.true_and, sameFields_iff]
    exact fun e hMem => ⟨e.2, Entries.get?_of_mem hMem h.1, same_refl_fields h.2 e hMem⟩

theorem sameItems_refl : ∀ {items : List Json}, WellFormedItems items → sameItems items items = true
  | [], _ => rfl
  | v :: rest, h => by
    rw [sameItems, same_refl h.1, sameItems_refl h.2]
    rfl

theorem same_refl_fields : ∀ {fields : List (String × Json)}, WellFormedFields fields →
    ∀ e ∈ fields, e.2.same e.2 = true
  | [], _ => List.forall_mem_nil _
  | (_, _) :: _, h => List.forall_mem_cons.mpr ⟨same_refl h.1, same_refl_fields h.2⟩

end

/-! ## Symmetry -/

/-- An object of as many fields has no names that the other one does not have. -/
theorem keys_subset_of_sameFields {as bs : List (String × Json)} (hNodup : (Entries.keys as).Nodup)
    (hLength : as.length = bs.length) (h : sameFields as bs = true) :
    Entries.keys bs ⊆ Entries.keys as := by
  have hSubset : Entries.keys as ⊆ Entries.keys bs := by
    intro k hk
    obtain ⟨e, hMem, rfl⟩ := List.mem_map.mp hk
    obtain ⟨b, hGet, -⟩ := sameFields_iff.mp h e hMem
    exact List.mem_map.mpr ⟨_, Entries.mem_of_get? hGet, rfl⟩
  have hPerm := (hNodup.subperm hSubset).perm_of_length_le (by simp [Entries.keys, hLength])
  exact hPerm.symm.subset

/-- Fields are matched the other way round as well if the equality of their values is symmetric. -/
theorem sameFields_symm {as bs : List (String × Json)} (ha : (Entries.keys as).Nodup)
    (hb : (Entries.keys bs).Nodup) (hLength : as.length = bs.length)
    (hSymm : ∀ e ∈ as, ∀ e' ∈ bs, e.2.same e'.2 = true → e'.2.same e.2 = true)
    (h : sameFields as bs = true) : sameFields bs as = true := by
  refine sameFields_iff.mpr fun e hMem => ?_
  obtain ⟨e', hMem', hName⟩ :=
    List.mem_map.mp (keys_subset_of_sameFields ha hLength h (List.mem_map_of_mem hMem))
  obtain ⟨b, hGet, hSame⟩ := sameFields_iff.mp h e' hMem'
  -- The field of the second object that matches this one is the one that was started with.
  obtain rfl : e.2 = b := Option.some.inj ((Entries.get?_of_mem hMem hb).symm.trans (hName ▸ hGet))
  exact ⟨e'.2, hName ▸ Entries.get?_of_mem hMem' ha, hSymm e' hMem' e hMem hSame⟩

mutual

theorem same_symm : ∀ {a b : Json}, a.WellFormed → b.WellFormed → a.same b = true → b.same a = true
  | .null, b, _, _, h => by
    cases b with
    | null => rfl
    | _ => cases h
  | .bool p, b, _, _, h => by
    cases b with
    | bool q => exact (BEq.comm (a := q)).trans h
    | _ => cases h
  | .int m, b, _, _, h => by
    cases b with
    | int n => exact (BEq.comm (a := n)).trans h
    | _ => cases h
  | .float x, b, _, _, h => by
    cases b with
    | float y =>
      rw [same, beq_iff_eq] at h ⊢
      rw [← Binary64.compare_swap, h]
      rfl
    | _ => cases h
  | .str s, b, _, _, h => by
    cases b with
    | str t => exact (BEq.comm (a := t)).trans h
    | _ => cases h
  | .arr as, b, ha, hb, h => by
    cases b with
    | arr bs => exact sameItems_symm ha hb h
    | _ => cases h
  | .obj as, b, ha, hb, h => by
    cases b with
    | obj bs =>
      rw [same, Bool.and_eq_true, beq_iff_eq] at h ⊢
      have hInner : ∀ e ∈ as, ∀ e' ∈ bs, e.2.same e'.2 = true → e'.2.same e.2 = true :=
        fun e hMem e' hMem' =>
          same_symm_fields ha.2 e hMem (wellFormedFields_iff.mp hb.2 e' hMem')
      exact ⟨h.1.symm, sameFields_symm ha.1 hb.1 h.1 hInner h.2⟩
    | _ => cases h

theorem sameItems_symm : ∀ {as bs : List Json}, WellFormedItems as → WellFormedItems bs →
    sameItems as bs = true → sameItems bs as = true
  | [], [], _, _, _ => rfl
  | [], _ :: _, _, _, h => h
  | _ :: _, [], _, _, h => h
  | a :: as, b :: bs, ha, hb, h => by
    rw [sameItems, Bool.and_eq_true] at h ⊢
    exact ⟨same_symm ha.1 hb.1 h.1, sameItems_symm ha.2 hb.2 h.2⟩

theorem same_symm_fields : ∀ {as : List (String × Json)}, WellFormedFields as →
    ∀ e ∈ as, ∀ {b : Json}, b.WellFormed → e.2.same b = true → b.same e.2 = true
  | [], _ => List.forall_mem_nil _
  | (_, _) :: _, h => List.forall_mem_cons.mpr ⟨fun hb => same_symm h.1 hb, same_symm_fields h.2⟩

end

theorem same_comm {a b : Json} (ha : a.WellFormed) (hb : b.WellFormed) : a.same b = b.same a :=
  Bool.eq_iff_iff.mpr ⟨same_symm ha hb, same_symm hb ha⟩

end Json

end Orchestration
