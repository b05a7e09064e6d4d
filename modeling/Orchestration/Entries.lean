/-!
# Entries by name, in order

An ordered map from names to values is the list of its entries. Writing to a name that is there
keeps its place; a new name goes last. In every list that `Entries.insert` builds from the empty one
each name occurs once (`Entries.nodup_keys_insert`).
-/

namespace Orchestration

/-- The entries of an ordered map from names to values. -/
abbrev Entries (α : Type) := List (String × α)

namespace Entries

variable {α : Type}

/-- The names, in order. -/
def keys (es : Entries α) : List String := es.map Prod.fst

def get? (name : String) : Entries α → Option α
  | [] => none
  | (k, v) :: rest => if k = name then some v else get? name rest

/-- Writes a value under a name: in place if the name is there, else at the end. -/
def insert (name : String) (value : α) : Entries α → Entries α
  | [] => [(name, value)]
  | (k, v) :: rest => if k = name then (k, value) :: rest else (k, v) :: insert name value rest

/-- Writes all entries of the second list into the first, in order. -/
def insertAll (es : Entries α) : Entries α → Entries α
  | [] => es
  | (k, v) :: rest => insertAll (es.insert k v) rest

/-- The map that a list of writes leaves behind. -/
def ofWrites (writes : Entries α) : Entries α := insertAll [] writes

def contains (name : String) (es : Entries α) : Bool := (es.get? name).isSome

/-! ## Laws of reading and writing -/

@[simp] theorem get?_nil (name : String) : get? name ([] : Entries α) = none := rfl

@[simp] theorem keys_nil : keys ([] : Entries α) = [] := rfl

@[simp] theorem keys_cons (k : String) (v : α) (es : Entries α) :
    keys ((k, v) :: es) = k :: keys es := rfl

theorem get?_insert_self (name : String) (value : α) (es : Entries α) :
    (es.insert name value).get? name = some value := by
  induction es with
  | nil => simp [insert, get?]
  | cons e es ih =>
    obtain ⟨k, v⟩ := e
    by_cases h : k = name <;> simp [insert, get?, h, ih]

theorem get?_insert_of_ne {name other : String} (h : other ≠ name) (value : α) (es : Entries α) :
    (es.insert name value).get? other = es.get? other := by
  induction es with
  | nil => simp [insert, get?, Ne.symm h]
  | cons e es ih =>
    obtain ⟨k, v⟩ := e
    by_cases hk : k = name
    · subst hk
      simp [insert, get?, Ne.symm h]
    · simp [insert, get?, hk, ih]

theorem get?_eq_none_iff {name : String} {es : Entries α} :
    es.get? name = none ↔ name ∉ es.keys := by
  induction es with
  | nil => simp [get?, keys]
  | cons e es ih =>
    obtain ⟨k, v⟩ := e
    by_cases h : k = name
    · simp [get?, h]
    · simp [get?, h, ih, Ne.symm h]

theorem keys_insert (name : String) (value : α) (es : Entries α) :
    (es.insert name value).keys = if name ∈ es.keys then es.keys else es.keys ++ [name] := by
  induction es with
  | nil => simp [insert, keys]
  | cons e es ih =>
    obtain ⟨k, v⟩ := e
    by_cases h : k = name
    · simp [insert, h]
    · simp only [insert, h, if_false, keys_cons, ih, List.mem_cons, Ne.symm h, false_or]
      split <;> simp

theorem nodup_keys_insert {es : Entries α} (h : es.keys.Nodup) (name : String) (value : α) :
    (es.insert name value).keys.Nodup := by
  rw [keys_insert]
  split
  · exact h
  · rename_i hn
    rw [List.nodup_append]
    refine ⟨h, by simp, ?_⟩
    rintro a ha b hb rfl
    simp only [List.mem_singleton] at hb
    exact hn (hb ▸ ha)

/-- Of two writes to one name the first leaves nothing but the place of the name. -/
theorem insert_insert (name : String) (value value' : α) (es : Entries α) :
    (es.insert name value).insert name value' = es.insert name value' := by
  induction es with
  | nil => simp [insert]
  | cons e es ih =>
    obtain ⟨k, v⟩ := e
    by_cases h : k = name <;> simp [insert, h, ih]

/-- Writing what is already there changes nothing. -/
theorem insert_eq_self {name : String} {value : α} {es : Entries α}
    (h : es.get? name = some value) :
    es.insert name value = es := by
  induction es with
  | nil => simp [get?] at h
  | cons e es ih =>
    obtain ⟨k, v⟩ := e
    by_cases hk : k = name
    · simp [get?, hk] at h
      simp [insert, hk, h]
    · simp [get?, hk] at h
      simp [insert, hk, ih h]

end Entries

end Orchestration
