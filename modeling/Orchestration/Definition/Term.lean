import Orchestration.Definition.Mismatch

/-!
# Terms of a definition

What a definition says inside a state, be it written in JSON or in YAML: a tree of
scalars, sequences and maps. Unlike an object, a map of a term may have a key twice, and
keys that are no strings.

* `Term.text`, `Term.count`, `Term.list` and the like take a term for one kind of thing
  or say what it is instead.
* `Term.json` is the JSON value of a term.
-/

namespace Orchestration.Definition

/-- What a definition says in one place. -/
inductive Term where
  | null
  | bool (b : Bool)
  | int (n : Int)
  | float (x : Binary64)
  /-- An infinity, or no number. -/
  | notFinite
  | str (s : String)
  | seq (items : List Term)
  | map (entries : List (Term × Term))

namespace Term

instance : Inhabited Term := ⟨.null⟩

/-- What a term is, for a message. -/
def found : Term → Found
  | .null => .null
  | .bool b => .bool b
  | .int n => .int n
  | .float x => .float x
  | .notFinite => .null
  | .str s => .str s
  | .seq _ => .seq
  | .map _ => .map

/-- The mismatch of a term with what is wanted. -/
def mismatch {α : Type} (t : Term) (wanted : Wanted) : Except Mismatch α :=
  .error (.wrongType t.found wanted)

def text : Term → Except Mismatch String
  | .str s => .ok s
  | t => t.mismatch .string

/-- A term that has to be a number of things. -/
def count : Term → Except Mismatch Nat
  | .int n => if 0 ≤ n then .ok n.toNat else .error (.wrongValue (.int n) .count)
  | t => t.mismatch .count

/-- A term that may be `null`. -/
def optional {α : Type} (read : Term → Except Mismatch α) : Term → Except Mismatch (Option α)
  | .null => .ok none
  | t => some <$> read t

mutual

/-- The JSON value of a term. What is no finite number is `null`. -/
def json : Term → Except Mismatch Json
  | .null | .notFinite => .ok .null
  | .bool b => .ok (.bool b)
  | .int n => .ok (.int n)
  | .float x => .ok (.float x)
  | .str s => .ok (.str s)
  | .seq items => do pure (.arr (← jsonItems items))
  | .map entries => do pure (.obj (← jsonFields [] entries))

def jsonItems : List Term → Except Mismatch (List Json)
  | [] => .ok []
  | t :: rest => do
    let v ← t.json
    pure (v :: (← jsonItems rest))

/-- Writes entries into the fields of an object, in order. -/
def jsonFields (fields : Entries Json) : List (Term × Term) → Except Mismatch (Entries Json)
  | [] => .ok fields
  | (k, t) :: rest => do
    let name ← k.text
    let v ← t.json
    jsonFields (fields.insert name v) rest

end

/-- The position that a name, or a number that is a position, has in a list of names. -/
def variant (known : List String) : Term → Except Mismatch Nat
  | .str s =>
    match known.findIdx? (· == s) with
    | some i => .ok i
    | none => .error (.unknownVariant s known)
  | .int n =>
    if 0 ≤ n then
      if n < known.length then .ok n.toNat
      else .error (.wrongValue (.int n) (.variantIndex known.length))
    else .error (.wrongType (.int n) .variant)
  | t => t.mismatch .variant

/-- The field that a key names, by name or by position; a key may name none. -/
def field (names : List String) : Term → Except Mismatch (Option String)
  | .str s => .ok (if names.contains s then some s else none)
  | .int n => if 0 ≤ n then .ok names[n.toNat]? else .error (.wrongType (.int n) .field)
  | t => t.mismatch .field

end Term

/-! ## Records -/

/-- How a record is written: as a map, or as the list of its fields in order. -/
inductive Layout where
  | named
  | listed
deriving DecidableEq

/-- The name of a record and of its fields, in order. -/
structure Record where
  name : String
  fields : List String

namespace Record

def once {α : Type} (field : String) (slot : Option α) (value : Except Mismatch α) :
    Except Mismatch (Option α) :=
  if slot.isSome then .error (.duplicate field) else some <$> value

def missing (r : Record) (layout : Layout) (field : String) : Mismatch :=
  match layout with
  | .named => .missing field
  | .listed => .wrongLength (r.fields.findIdx (· == field)) (.recordOf r.name r.fields.length)

def required {α : Type} (r : Record) (layout : Layout) (field : String) (slot : Option α) :
    Except Mismatch α :=
  match slot with
  | some v => .ok v
  | none => .error (r.missing layout field)

/-- A list may not be longer than the fields of the record. -/
def checkLength (r : Record) (items : List Term) : Except Mismatch Unit :=
  if r.fields.length < items.length then
    .error (.wrongLength items.length (.elements r.fields.length))
  else .ok ()

/-- Puts the entries that name fields of the record into a state, in order. -/
def readEntries {σ : Type} (r : Record) (put : σ → String → Term → Except Mismatch σ) :
    σ → List (Term × Term) → Except Mismatch σ
  | acc, [] => .ok acc
  | acc, (k, t) :: rest => do
    match ← k.field r.fields with
    | some field => readEntries r put (← put acc field t) rest
    | none => readEntries r put acc rest

/-- Puts listed fields into a state, in order. -/
def readItems {σ : Type} (put : σ → String → Term → Except Mismatch σ) :
    σ → List String → List Term → Except Mismatch σ
  | acc, field :: fields, t :: rest => do readItems put (← put acc field t) fields rest
  | acc, _, _ => .ok acc

end Record

end Orchestration.Definition
