import Mathlib.Data.List.Forall2
import Mathlib.Data.List.Nodup
import Mathlib.Data.List.Perm.Subperm
import Orchestration.Entries

/-!
# Entries and results

What reading, writing and the names of entries have to do with the entries in the list, and when a
computation that may fail has a result.
-/

namespace Orchestration

/-! ## Results -/

theorem bind_eq_ok_iff {ε α β : Type} {x : Except ε α} {f : α → Except ε β} {b : β} :
    (x >>= f) = .ok b ↔ ∃ a, x = .ok a ∧ f a = .ok b := by
  cases x with
  | error e => simp [bind, Except.bind]
  | ok a => simp [bind, Except.bind]

theorem bind_eq_error_iff {ε α β : Type} {x : Except ε α} {f : α → Except ε β} {e : ε} :
    (x >>= f) = .error e ↔ x = .error e ∨ ∃ a, x = .ok a ∧ f a = .error e := by
  cases x with
  | error e' => simp [bind, Except.bind]
  | ok a => simp [bind, Except.bind]

theorem pure_eq_ok_iff {ε α : Type} {a b : α} : (pure a : Except ε α) = .ok b ↔ a = b := by
  simp [pure, Except.pure]

/-! ## Lists -/

/-- The last member of a list stands behind all others. -/
theorem getElem?_snoc {α : Type} (xs : List α) (x : α) (i : Nat) :
    (xs ++ [x])[i]? = if i = xs.length then some x else xs[i]? := by
  rw [List.getElem?_append, List.getElem?_singleton]
  grind

theorem exists_of_forall₂ {α β : Type} {R : α → β → Prop} {as : List α} {bs : List β}
    (h : List.Forall₂ R as bs) {a : α} (ha : a ∈ as) : ∃ b ∈ bs, R a b := by
  induction h with
  | nil => cases ha
  | cons hHead _ ih =>
    rcases List.mem_cons.mp ha with rfl | hRest
    · exact ⟨_, List.mem_cons_self, hHead⟩
    · obtain ⟨b, hb, hR⟩ := ih hRest
      exact ⟨b, List.mem_cons_of_mem _ hb, hR⟩

/-- A relation that comes down to a property of the second member, by what is known of the pairs. -/
theorem forall₂_iff_of_forall₂ {α β : Type} {R S : α → β → Prop} {P : β → Prop} {as : List α}
    {bs : List β} (h : List.Forall₂ S as bs) (hIff : ∀ a, ∀ b ∈ bs, S a b → (R a b ↔ P b)) :
    List.Forall₂ R as bs ↔ ∀ b ∈ bs, P b := by
  induction h with
  | nil => simp
  | cons hHead _ ih =>
    rw [List.forall₂_cons, List.forall_mem_cons, hIff _ _ List.mem_cons_self hHead,
      ih fun a b hb => hIff a b (List.mem_cons_of_mem _ hb)]

theorem forall₂_set_both {α β : Type} {R : α → β → Prop} {as : List α} {bs : List β}
    (h : List.Forall₂ R as bs) {a : α} {b : β} (hNew : R a b) (i : Nat) :
    List.Forall₂ R (as.set i a) (bs.set i b) := by
  induction h generalizing i with
  | nil => exact .nil
  | cons hHead hRest ih =>
    cases i with
    | zero => exact .cons hNew hRest
    | succ i => exact .cons hHead (ih i)

/-- Lists that stand in a relation still do so once they are sorted by what the relation keeps. -/
theorem forall₂_mergeSort {α β : Type} {R : α → β → Prop} {r : α → α → Bool} {r' : β → β → Bool}
    {as : List α} {bs : List β} (h : List.Forall₂ R as bs)
    (hSame : ∀ a a' b b', R a b → R a' b' → r a a' = r' b b') :
    List.Forall₂ R (as.mergeSort r) (bs.mergeSort r') := by
  obtain ⟨hLength, hPairs⟩ := List.forall₂_iff_zip.mp h
  -- The pairs are sorted by their first members, which is to say by their second ones.
  have hFirst : ((as.zip bs).mergeSort fun p q => r p.1 q.1).map Prod.fst = as.mergeSort r := by
    calc ((as.zip bs).mergeSort fun p q => r p.1 q.1).map Prod.fst
        = ((as.zip bs).map Prod.fst).mergeSort r := List.map_mergeSort fun _ _ _ _ => rfl
      _ = as.mergeSort r := by rw [List.map_fst_zip (Nat.le_of_eq hLength)]
  have hSecond : ((as.zip bs).mergeSort fun p q => r p.1 q.1).map Prod.snd = bs.mergeSort r' := by
    calc ((as.zip bs).mergeSort fun p q => r p.1 q.1).map Prod.snd
        = ((as.zip bs).map Prod.snd).mergeSort r' :=
          List.map_mergeSort fun p hp q hq => hSame p.1 q.1 p.2 q.2 (hPairs hp) (hPairs hq)
      _ = bs.mergeSort r' := by rw [List.map_snd_zip (Nat.le_of_eq hLength.symm)]
  rw [← hFirst, ← hSecond, List.forall₂_map_left_iff, List.forall₂_map_right_iff, List.forall₂_same]
  exact fun p hp => hPairs (List.mem_mergeSort.mp hp)

/-! ## Entries -/

namespace Entries

variable {α : Type}

theorem mem_of_get? {name : String} {value : α} {es : Entries α}
    (h : es.get? name = some value) : (name, value) ∈ es := by
  induction es with
  | nil => simp at h
  | cons e es ih =>
    obtain ⟨k, v⟩ := e
    rw [get?] at h
    split at h
    · rename_i hk
      cases h
      rw [hk]
      exact List.mem_cons_self
    · exact List.mem_cons_of_mem _ (ih h)

/-- What is in a map after a write is the new entry or was there. -/
theorem mem_insert {name k : String} {value v : α} {es : Entries α}
    (h : (k, v) ∈ es.insert name value) : (k, v) = (name, value) ∨ (k, v) ∈ es := by
  induction es with
  | nil => simpa [insert] using h
  | cons e es ih =>
    obtain ⟨k', v'⟩ := e
    rw [insert] at h
    split at h
    · rename_i hk
      rcases List.mem_cons.mp h with h | h
      · exact .inl (by rw [h, hk])
      · exact .inr (List.mem_cons_of_mem _ h)
    · rcases List.mem_cons.mp h with h | h
      · exact .inr (by rw [h]; exact List.mem_cons_self)
      · rcases ih h with h | h
        · exact .inl h
        · exact .inr (List.mem_cons_of_mem _ h)

theorem contains_iff {name : String} {es : Entries α} :
    es.contains name = true ↔ name ∈ es.keys := by
  have hNone := @get?_eq_none_iff α name es
  rw [contains]
  cases hGet : es.get? name with
  | none => simpa [hGet] using hNone
  | some v => simpa [hGet] using hNone

theorem get?_of_mem {name : String} {value : α} {es : Entries α} (h : (name, value) ∈ es)
    (hNodup : es.keys.Nodup) : es.get? name = some value := by
  induction es with
  | nil => cases h
  | cons e es ih =>
    obtain ⟨k, v⟩ := e
    rw [keys_cons, List.nodup_cons] at hNodup
    rw [get?]
    rcases List.mem_cons.mp h with h | h
    · cases h
      rw [if_pos rfl]
    · have hNe : k ≠ name := by
        rintro rfl
        exact hNodup.1 (List.mem_map_of_mem h)
      rw [if_neg hNe]
      exact ih h hNodup.2

theorem get?_append (name : String) (as bs : Entries α) :
    get? name (as ++ bs) = (get? name as).or (get? name bs) := by
  induction as with
  | nil => rfl
  | cons e as ih =>
    obtain ⟨k, v⟩ := e
    rw [List.cons_append, get?, get?]
    split
    · rfl
    · exact ih

theorem get?_of_perm {es es' : Entries α} (h : es.Perm es') (hNodup : es.keys.Nodup)
    (name : String) :
    es'.get? name = es.get? name := by
  have hNodup' : es'.keys.Nodup := (h.map Prod.fst).nodup_iff.mp hNodup
  cases hGet : es.get? name with
  | some value => exact get?_of_mem (h.mem_iff.mp (mem_of_get? hGet)) hNodup'
  | none =>
    refine get?_eq_none_iff.mpr fun hMem => get?_eq_none_iff.mp hGet ?_
    exact (h.map Prod.fst).mem_iff.mpr hMem

/-- A reader that cannot tell two values apart reads the same at every name,
whichever of them is there. -/
theorem get?_bind_congr {β : Type} {f : α → Option β} {a a' : α} (h : f a' = f a)
    (before after : Entries α) (k name : String) :
    (get? name (before ++ (k, a') :: after)).bind f =
      (get? name (before ++ (k, a) :: after)).bind f := by
  induction before with
  | nil =>
    rw [List.nil_append, List.nil_append, get?, get?]
    split
    · exact h
    · rfl
  | cons e rest ih =>
    rw [List.cons_append, List.cons_append, get?, get?]
    split
    · rfl
    · exact ih

/-! ## Writing many entries -/

theorem nodup_keys_insertAll {es : Entries α} (h : es.keys.Nodup) (writes : Entries α) :
    (es.insertAll writes).keys.Nodup := by
  induction writes generalizing es with
  | nil => exact h
  | cons e rest ih => exact ih (nodup_keys_insert h e.1 e.2)

theorem insertAll_ne_nil {es : Entries α} (h : es ≠ []) (writes : Entries α) :
    es.insertAll writes ≠ [] := by
  induction writes generalizing es with
  | nil => exact h
  | cons e rest ih =>
    refine ih ?_
    obtain ⟨e', es, rfl⟩ := List.exists_cons_of_ne_nil h
    rw [insert]
    split <;> simp

theorem insert_of_not_mem {name : String} {value : α} {es : Entries α} (h : name ∉ es.keys) :
    es.insert name value = es ++ [(name, value)] := by
  induction es with
  | nil => rfl
  | cons e es ih =>
    obtain ⟨k, v⟩ := e
    rw [keys_cons, List.mem_cons, not_or] at h
    rw [insert, if_neg (Ne.symm h.1), ih h.2, List.cons_append]

/-- An entry whose name is not there yet goes last. -/
theorem insert_of_nodup {name : String} {value : α} {es rest : Entries α}
    (h : (es ++ (name, value) :: rest).keys.Nodup) :
    es.insert name value = es ++ [(name, value)] := by
  apply insert_of_not_mem
  rw [keys, List.map_append, List.nodup_append] at h
  exact fun hName => h.2.2 name hName name List.mem_cons_self rfl

theorem insertAll_of_disjoint {es writes : Entries α} (h : (es ++ writes).keys.Nodup) :
    es.insertAll writes = es ++ writes := by
  induction writes generalizing es with
  | nil => rw [insertAll, List.append_nil]
  | cons e rest ih =>
    obtain ⟨k, v⟩ := e
    rw [insertAll, insert_of_nodup h, ih, List.append_assoc]
    · rfl
    · rwa [List.append_assoc]

/-- Writing entries under different names into an empty map leaves just them. -/
theorem ofWrites_of_nodup {es : Entries α} (h : es.keys.Nodup) : ofWrites es = es := by
  exact insertAll_of_disjoint h

theorem insert_subperm (es : Entries α) (name : String) (value : α) :
    (es.insert name value).Subperm (es ++ [(name, value)]) := by
  induction es with
  | nil => exact List.Subperm.refl _
  | cons e es ih =>
    obtain ⟨k, v⟩ := e
    rw [insert]
    split
    · rename_i hk
      subst hk
      have hEnd : ((k, value) :: es).Subperm (es ++ [(k, value)]) :=
        (List.perm_append_singleton _ _).symm.subperm
      exact hEnd.trans (List.sublist_cons_self _ _).subperm
    · exact (List.subperm_cons (k, v)).mpr ih

/-- Writing entries keeps some of those there were and some of the new ones. -/
theorem insertAll_subperm (es writes : Entries α) :
    (es.insertAll writes).Subperm (es ++ writes) := by
  induction writes generalizing es with
  | nil => simpa [insertAll] using List.Subperm.refl es
  | cons e rest ih =>
    rw [insertAll, List.append_cons]
    exact (ih _).trans ((insert_subperm es e.1 e.2).append (List.Subperm.refl rest))

theorem insertAll_append (es as bs : Entries α) :
    es.insertAll (as ++ bs) = (es.insertAll as).insertAll bs := by
  induction as generalizing es with
  | nil => rfl
  | cons e rest ih => exact ih (es.insert e.1 e.2)

/-- What is found after many writes is the last one under the name, else what was there. -/
theorem get?_insertAll (es writes : Entries α) (name : String) :
    (es.insertAll writes).get? name = ((ofWrites writes).get? name).or (es.get? name) := by
  induction writes generalizing es with
  | nil => rfl
  | cons e rest ih =>
    obtain ⟨k, v⟩ := e
    have hFirst : (es.insert k v).get? name = (get? name [(k, v)]).or (es.get? name) := by
      by_cases hk : name = k
      · subst hk
        rw [get?_insert_self, get?, if_pos rfl, Option.some_or]
      · rw [get?_insert_of_ne hk, get?, if_neg (Ne.symm hk), get?_nil, Option.none_or]
    have hAlone : (ofWrites ((k, v) :: rest)).get? name =
        ((ofWrites rest).get? name).or (get? name [(k, v)]) := ih [(k, v)]
    rw [insertAll, ih, hFirst, ← Option.or_assoc, ← hAlone]

theorem mem_keys_insertAll {es writes : Entries α} {name : String} :
    name ∈ (es.insertAll writes).keys ↔ name ∈ es.keys ∨ name ∈ keys writes := by
  induction writes generalizing es with
  | nil => simp [insertAll]
  | cons e rest ih =>
    obtain ⟨k, v⟩ := e
    rw [insertAll, ih, keys_insert, keys_cons, List.mem_cons]
    split <;> grind

theorem keys_insertAll_of_subset {es writes : Entries α}
    (h : ∀ name ∈ keys writes, name ∈ es.keys) :
    (es.insertAll writes).keys = es.keys := by
  induction writes generalizing es with
  | nil => rfl
  | cons e rest ih =>
    obtain ⟨k, v⟩ := e
    have hKeys : (es.insert k v).keys = es.keys := by
      rw [keys_insert, if_pos (h k List.mem_cons_self)]
    rw [insertAll, ih, hKeys]
    intro name hName
    rw [hKeys]
    exact h name (List.mem_cons_of_mem _ hName)

/-- Two maps that have the same names in the same order and the same values under them are equal. -/
theorem eq_of_keys_of_get? {as bs : Entries α} (hNodup : as.keys.Nodup) (hKeys : as.keys = bs.keys)
    (hGet : ∀ name, as.get? name = bs.get? name) : as = bs := by
  induction as generalizing bs with
  | nil => exact (List.map_eq_nil_iff.mp hKeys.symm).symm
  | cons a as ih =>
    obtain ⟨k, v⟩ := a
    cases bs with
    | nil => cases hKeys
    | cons b bs =>
      obtain ⟨k', v'⟩ := b
      rw [keys_cons, keys_cons] at hKeys
      obtain ⟨rfl, hRest⟩ := List.cons.inj hKeys
      rw [keys_cons, List.nodup_cons] at hNodup
      have hHead := hGet k
      rw [get?, get?, if_pos rfl, if_pos rfl] at hHead
      obtain rfl := Option.some.inj hHead
      rw [ih hNodup.2 hRest fun name => ?_]
      by_cases hk : k = name
      · subst hk
        have hNone := get?_eq_none_iff.mpr hNodup.1
        rw [hNone, get?_eq_none_iff.mpr (hRest ▸ hNodup.1)]
      · simpa only [get?, if_neg hk] using hGet name

/-- Many writes change nothing if and only if the last one under each name writes what is there. -/
theorem insertAll_eq_self_iff {es : Entries α} (hNodup : es.keys.Nodup) (writes : Entries α) :
    es.insertAll writes = es ↔ ∀ e ∈ ofWrites writes, e ∈ es := by
  have hEmpty : (keys ([] : Entries α)).Nodup := List.nodup_nil
  have hLast : (ofWrites writes).keys.Nodup := nodup_keys_insertAll hEmpty writes
  constructor
  · rintro hSame ⟨k, v⟩ hMem
    have hGet := get?_insertAll es writes k
    rw [hSame, get?_of_mem hMem hLast, Option.some_or] at hGet
    exact mem_of_get? hGet
  · intro hIn
    have hKeys : (es.insertAll writes).keys = es.keys := by
      apply keys_insertAll_of_subset
      intro name hName
      have hWritten : name ∈ (ofWrites writes).keys := mem_keys_insertAll.mpr (.inr hName)
      obtain ⟨e, hMem, rfl⟩ := List.mem_map.mp hWritten
      exact List.mem_map_of_mem (hIn _ hMem)
    refine eq_of_keys_of_get? (hKeys ▸ hNodup) hKeys fun name => ?_
    rw [get?_insertAll]
    cases hGet : (ofWrites writes).get? name with
    | none => rw [Option.none_or]
    | some v => rw [Option.some_or, get?_of_mem (hIn _ (mem_of_get? hGet)) hNodup]

end Entries

end Orchestration
