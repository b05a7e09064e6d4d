import Orchestration.Binary64.Basic
import Orchestration.Entries

/-!
# JSON values

Whole numbers and doubles are different values. An object is the list of its fields in the order in
which they were first written.

* `Json.same` is equality of values: it ignores the order of fields and takes the two zeros of the
  doubles for one.
* `Json.WellFormed` says what every value that was read or built by writing fields satisfies: whole
  numbers fit 64 bits and no object has a name twice.
-/

namespace Orchestration

/-- A JSON value. -/
inductive Json where
  | null
  | bool (b : Bool)
  | int (n : Int)
  | float (x : Binary64)
  | str (s : String)
  | arr (items : List Json)
  | obj (fields : List (String × Json))

namespace Json

instance : Inhabited Json := ⟨.null⟩

/-! ## Ranges of whole numbers -/

/-- The least whole number of a JSON value. -/
def minInt : Int := -9223372036854775808

/-- The greatest whole number of a JSON value. -/
def maxInt : Int := 18446744073709551615

/-- The greatest whole number of a signed word of 64 bits. -/
def maxSigned : Int := 9223372036854775807

/-- The whole numbers that fit a signed word of 64 bits. -/
def FitsSigned (n : Int) : Prop := minInt ≤ n ∧ n ≤ maxSigned

instance (n : Int) : Decidable (FitsSigned n) := inferInstanceAs (Decidable (_ ∧ _))

mutual

/-- Whole numbers are in range and the names of each object are distinct, at every level. -/
def WellFormed : Json → Prop
  | .null | .bool _ | .float _ | .str _ => True
  | .int n => minInt ≤ n ∧ n ≤ maxInt
  | .arr items => WellFormedItems items
  | .obj fields => (Entries.keys fields).Nodup ∧ WellFormedFields fields

/-- `WellFormed` for every item of a list. -/
def WellFormedItems : List Json → Prop
  | [] => True
  | v :: rest => v.WellFormed ∧ WellFormedItems rest

/-- `WellFormed` for every value of a list of fields. -/
def WellFormedFields : List (String × Json) → Prop
  | [] => True
  | (_, v) :: rest => v.WellFormed ∧ WellFormedFields rest

end

/-! ## Equality -/

mutual

/-- Whether two values are equal, objects as maps and doubles as numbers. -/
def same : Json → Json → Bool
  | .null, .null => true
  | .bool a, .bool b => a == b
  | .int a, .int b => a == b
  | .float a, .float b => a.compare b == .eq
  | .str a, .str b => a == b
  | .arr as, .arr bs => sameItems as bs
  | .obj as, .obj bs => as.length == bs.length && sameFields as bs
  | _, _ => false

/-- Whether two lists of values are equal item by item. -/
def sameItems : List Json → List Json → Bool
  | [], [] => true
  | a :: as, b :: bs => a.same b && sameItems as bs
  | _, _ => false

/-- Whether every field of the first list has an equal value in the second. -/
def sameFields : List (String × Json) → List (String × Json) → Bool
  | [], _ => true
  | (k, a) :: rest, bs =>
    (match Entries.get? k bs with
      | some b => a.same b
      | none => false) && sameFields rest bs

end

/-! ## Views -/

def items? : Json → Option (List Json)
  | .arr items => some items
  | _ => none

def fields? : Json → Option (Entries Json)
  | .obj fields => some fields
  | _ => none

def text? : Json → Option String
  | .str s => some s
  | _ => none

def field? (name : String) : Json → Option Json
  | .obj fields => Entries.get? name fields
  | _ => none

/-- The value under a name, `null` where there is none. -/
def fieldOrNull (name : String) (v : Json) : Json := (v.field? name).getD .null

def single (name : String) (value : Json) : Json := .obj [(name, value)]

/-- A string, or `null` where there is none. -/
def strOrNull : Option String → Json
  | some s => .str s
  | none => .null

end Json

end Orchestration
