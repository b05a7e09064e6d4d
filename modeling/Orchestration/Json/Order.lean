import Orchestration.Json.Basic

/-!
# Order of JSON values

Numbers, strings and truth values are ordered among themselves; nothing else is (`Json.order?`).
Whole numbers that fit a signed word are compared exactly, all other pairs of numbers as the doubles
nearest to them. Strings are ordered by code points.
-/

namespace Orchestration

namespace Json

/-- The double nearest to a number. -/
def toFloat? : Json → Option Binary64
  | .int n => some (Binary64.ofInt n)
  | .float x => some x
  | _ => none

/-- The order of two texts by code points. -/
def orderText : List Char → List Char → Ordering
  | [], [] => .eq
  | [], _ :: _ => .lt
  | _ :: _, [] => .gt
  | a :: as, b :: bs => (Ord.compare a.toNat b.toNat).then (orderText as bs)

/-- The order of two numbers. -/
def orderNumbers? : Json → Json → Option Ordering
  | .int a, .int b =>
    if FitsSigned a ∧ FitsSigned b then some (Ord.compare a b)
    else some ((Binary64.ofInt a).compare (Binary64.ofInt b))
  | a, b => do pure ((← a.toFloat?).compare (← b.toFloat?))

/-- The order of two values of one ordered kind. -/
def order? : Json → Json → Option Ordering
  | .str a, .str b => some (orderText a.toList b.toList)
  | .bool a, .bool b => some (Ord.compare a.toNat b.toNat)
  | a, b => orderNumbers? a b

end Json

/-- An operator that compares two values. -/
inductive Comparison where
  | lessThan
  | lessThanEquals
  | equals
  | greaterThanEquals
  | greaterThan
deriving DecidableEq

namespace Comparison

/-- All operators, from less to greater. -/
def all : List Comparison := [.lessThan, .lessThanEquals, .equals, .greaterThanEquals, .greaterThan]

def symbol : Comparison → String
  | .lessThan => "<"
  | .lessThanEquals => "<="
  | .equals => "=="
  | .greaterThanEquals => ">="
  | .greaterThan => ">"

/-- The operator as a word, as comparators of state machines are named. -/
def name : Comparison → String
  | .lessThan => "LessThan"
  | .lessThanEquals => "LessThanEquals"
  | .equals => "Equals"
  | .greaterThanEquals => "GreaterThanEquals"
  | .greaterThan => "GreaterThan"

/-- Whether the operator holds between two values that stand in this order. -/
def admits : Comparison → Ordering → Bool
  | .lessThan, o => o.isLT
  | .lessThanEquals, o => o.isLE
  | .equals, o => o.isEq
  | .greaterThanEquals, o => o.isGE
  | .greaterThan, o => o.isGT

/-- Whether `left op right` holds. Values without an order are only compared for equality; `none`
for any other operator on them. -/
def holds? (left : Json) (op : Comparison) (right : Json) : Option Bool :=
  match left.order? right with
  | some o => some (op.admits o)
  | none => if op = .equals then some (left.same right) else none

end Comparison

end Orchestration
