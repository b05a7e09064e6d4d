import Orchestration.Proofs.Json.Equality

/-!
# Comparing JSON values

Two numbers, two texts and two truth values stand in one order, from whichever side they are looked
at, and the operators are read off this order. All other values are equal or not, and no other
operator says anything about them.

* `Json.Comparable.exists_order`, `Json.order?_eq_none`: what has an order.
* `Comparison.holds?_mirrored`: the operands may change sides if the operator is mirrored.
* `Comparison.OrdersTotally`: values that are ordered as what they stand for.
* `Comparison.holds?_laws`: how the operators go together.
-/

namespace Orchestration

namespace Json

/-- A whole number or a double. -/
inductive IsNumber : Json → Prop
  | int (n : Int) : IsNumber (.int n)
  | float (x : Binary64) : IsNumber (.float x)

/-- Both are numbers, or texts, or truth values. -/
inductive Comparable : Json → Json → Prop
  | numbers {a b : Json} (ha : a.IsNumber) (hb : b.IsNumber) : Comparable a b
  | texts (s t : String) : Comparable (.str s) (.str t)
  | truths (p q : Bool) : Comparable (.bool p) (.bool q)

variable {a b : Json}

theorem Comparable.symm (h : a.Comparable b) : b.Comparable a := by
  cases h with
  | numbers ha hb => exact .numbers hb ha
  | texts s t => exact .texts t s
  | truths p q => exact .truths q p

/-! ## Orders -/

theorem orderText_eq_compareLex (as bs : List Char) :
    orderText as bs = List.compareLex compare (as.map Char.toNat) (bs.map Char.toNat) := by
  induction as generalizing bs with
  | nil => cases bs <;> rfl
  | cons a as ih =>
    cases bs with
    | nil => rfl
    | cons b bs => rw [orderText, ih, List.map_cons, List.map_cons, List.compareLex_cons_cons]

theorem orderText_swap (as bs : List Char) : (orderText as bs).swap = orderText bs as := by
  rw [orderText_eq_compareLex, orderText_eq_compareLex, ← Std.OrientedCmp.eq_swap]

theorem orderNumbers?_of_isNumber (ha : a.IsNumber) (hb : b.IsNumber) :
    ∃ o, a.orderNumbers? b = some o ∧ b.orderNumbers? a = some o.swap := by
  cases ha with
  | int m =>
    cases hb with
    | int n =>
      rw [orderNumbers?, orderNumbers?]
      by_cases hFit : FitsSigned m ∧ FitsSigned n
      · rw [if_pos hFit, if_pos hFit.symm]
        exact ⟨_, rfl, congrArg some Std.OrientedCmp.eq_swap⟩
      · rw [if_neg hFit, if_neg (fun h => hFit h.symm)]
        exact ⟨_, rfl, congrArg some (Binary64.compare_swap _ _).symm⟩
    | float y => exact ⟨_, rfl, congrArg some (Binary64.compare_swap _ _).symm⟩
  | float x => cases hb <;> exact ⟨_, rfl, congrArg some (Binary64.compare_swap _ _).symm⟩

/-- Comparable values have an order, which is the other way round from the other side. -/
theorem Comparable.exists_order (h : a.Comparable b) : ∃ o, a.order? b = some o ∧
    b.order? a = some o.swap := by
  cases h with
  | numbers ha hb =>
    obtain ⟨o, hOrder⟩ := orderNumbers?_of_isNumber ha hb
    cases ha <;> cases hb <;> exact ⟨o, hOrder⟩
  | texts s t => exact ⟨_, rfl, congrArg some (orderText_swap _ _).symm⟩
  | truths p q => exact ⟨_, rfl, congrArg some Std.OrientedCmp.eq_swap⟩

/-- Nothing else has an order. -/
theorem order?_eq_none (h : ¬ a.Comparable b) : a.order? b = none := by
  cases a with
  | null => cases b <;> rfl
  | arr _ => cases b <;> rfl
  | obj _ => cases b <;> rfl
  | bool p =>
    cases b with
    | bool q => exact absurd (.truths p q) h
    | _ => rfl
  | str s =>
    cases b with
    | str t => exact absurd (.texts s t) h
    | _ => rfl
  | int m =>
    cases b with
    | int n => exact absurd (.numbers (.int m) (.int n)) h
    | float y => exact absurd (.numbers (.int m) (.float y)) h
    | _ => rfl
  | float x =>
    cases b with
    | int n => exact absurd (.numbers (.float x) (.int n)) h
    | float y => exact absurd (.numbers (.float x) (.float y)) h
    | _ => rfl

end Json

namespace Comparison

/-- The operator between operands that have changed sides. -/
def mirrored : Comparison → Comparison
  | .lessThan => .greaterThan
  | .lessThanEquals => .greaterThanEquals
  | .equals => .equals
  | .greaterThanEquals => .lessThanEquals
  | .greaterThan => .lessThan

theorem admits_mirrored (op : Comparison) (o : Ordering) :
    op.mirrored.admits o.swap = op.admits o := by
  cases op <;> cases o <;> rfl

theorem mirrored_eq_equals_iff {op : Comparison} : op.mirrored = .equals ↔ op = .equals := by
  cases op <;> decide

variable {a b : Json} {op : Comparison}

/-! ## Verdicts -/

theorem holds?_of_order {o : Ordering} (h : a.order? b = some o) (op : Comparison) :
    holds? a op b = some (op.admits o) := by
  rw [holds?, h]

theorem holds?_of_not_comparable (h : ¬ a.Comparable b) (op : Comparison) :
    holds? a op b = if op = .equals then some (a.same b) else none := by
  rw [holds?, Json.order?_eq_none h]

theorem holds?_eq_none_iff : holds? a op b = none ↔ op ≠ .equals ∧ ¬ a.Comparable b := by
  by_cases h : a.Comparable b
  · obtain ⟨o, hOrder, -⟩ := h.exists_order
    simp [holds?_of_order hOrder, h]
  · simp [holds?_of_not_comparable h, h]

/-- Exactly one of the three operators holds that do not overlap. -/
theorem existsUnique_holds? (h : a.Comparable b) :
    ∃! op, op ∈ [.lessThan, .equals, .greaterThan] ∧ holds? a op b = some true := by
  obtain ⟨o, hOrder, -⟩ := h.exists_order
  simp only [holds?_of_order hOrder, Option.some.injEq]
  cases o with
  | lt => exact ⟨.lessThan, by decide, by rintro (_ | _) <;> simp [admits]⟩
  | eq => exact ⟨.equals, by decide, by rintro (_ | _) <;> simp [admits]⟩
  | gt => exact ⟨.greaterThan, by decide, by rintro (_ | _) <;> simp [admits]⟩

/-- Of two operators that are the negations of each other both have a verdict or neither has. -/
theorem holds?_not (op op' : Comparison) (hOp : op ≠ .equals) (hOp' : op' ≠ .equals)
    (hNot : ∀ o, op.admits o = !op'.admits o) : holds? a op b = (holds? a op' b).map (!·) := by
  by_cases h : a.Comparable b
  · obtain ⟨o, hOrder, -⟩ := h.exists_order
    rw [holds?_of_order hOrder, holds?_of_order hOrder, hNot]
    rfl
  · rw [holds?_of_not_comparable h, holds?_of_not_comparable h, if_neg hOp, if_neg hOp']
    rfl

theorem holds?_equals_self (ha : a.WellFormed) : holds? a .equals a = some true := by
  by_cases h : a.Comparable a
  · obtain ⟨o, hOrder, hSwapped⟩ := h.exists_order
    have hSelf : o = o.swap := Option.some.inj (hOrder.symm.trans hSwapped)
    rw [holds?_of_order hOrder]
    cases o <;> first | rfl | cases hSelf
  · rw [holds?_of_not_comparable h, if_pos rfl, Json.same_refl ha]

theorem holds?_mirrored (ha : a.WellFormed) (hb : b.WellFormed) (op : Comparison) :
    holds? b op.mirrored a = holds? a op b := by
  by_cases h : a.Comparable b
  · obtain ⟨o, hOrder, hSwapped⟩ := h.exists_order
    rw [holds?_of_order hOrder, holds?_of_order hSwapped, admits_mirrored]
  · have hSwapped : ¬ b.Comparable a := fun hc => h hc.symm
    simp only [holds?_of_not_comparable h, holds?_of_not_comparable hSwapped,
      mirrored_eq_equals_iff, Json.same_comm hb ha]

/-! ## Total orders -/

/-- On the values that stand for something, `≤` is a total order. -/
structure OrdersTotally {α : Type} (value : α → Json) : Prop where
  total : ∀ x y, holds? (value x) .lessThanEquals (value y) = some true ∨
    holds? (value y) .lessThanEquals (value x) = some true
  antisymm : ∀ x y, holds? (value x) .lessThanEquals (value y) = some true →
    holds? (value y) .lessThanEquals (value x) = some true → x = y
  trans : ∀ x y z, holds? (value x) .lessThanEquals (value y) = some true →
    holds? (value y) .lessThanEquals (value z) = some true →
    holds? (value x) .lessThanEquals (value z) = some true

/-- Values that are compared by different keys. -/
theorem OrdersTotally.of_key {α κ : Type} {value : α → Json} (cmp : κ → κ → Ordering)
    [Std.TransCmp cmp] [Std.LawfulEqCmp cmp] {key : α → κ} (hKey : Function.Injective key)
    (hOrder : ∀ x y, (value x).order? (value y) = some (cmp (key x) (key y))) :
    OrdersTotally value := by
  have hLess : ∀ x y, holds? (value x) .lessThanEquals (value y) = some true ↔
      (cmp (key x) (key y)).isLE := by
    intro x y
    rw [holds?_of_order (hOrder x y), Option.some.injEq]
    rfl
  refine ⟨fun x y => ?_, fun x y h h' => ?_, fun x y z h h' => ?_⟩
  · have hSwapped : cmp (key y) (key x) = (cmp (key x) (key y)).swap := Std.OrientedCmp.eq_swap
    rw [hLess, hLess, hSwapped]
    cases cmp (key x) (key y) <;> simp
  · rw [hLess] at h h'
    exact hKey (Std.LawfulEqCmp.eq_of_compare (Std.OrientedCmp.isLE_antisymm h h'))
  · rw [hLess] at h h' ⊢
    exact Std.TransCmp.isLE_trans h h'

theorem ordersTotally_str : OrdersTotally Json.str := by
  have hKey : Function.Injective fun s : String => s.toList.map Char.toNat := fun s t h =>
    String.toList_injective (List.map_injective_iff.mpr (fun _ _ => Char.toNat_inj.mp) h)
  exact .of_key (List.compareLex compare) hKey fun s t =>
    congrArg some (Json.orderText_eq_compareLex s.toList t.toList)

theorem ordersTotally_bool : OrdersTotally Json.bool := by
  have hKey : Function.Injective Bool.toNat := by
    unfold Function.Injective
    decide
  exact .of_key compare hKey fun _ _ => rfl

theorem ordersTotally_int : OrdersTotally fun n : { n : Int // Json.FitsSigned n } => .int n :=
  .of_key compare Subtype.val_injective fun m n => if_pos ⟨m.2, n.2⟩

/-! ## Laws -/

/-- Values that are not comparable can only be tested for equality. Of those that are, exactly one
is less, equal or greater, and the other two operators are negations of these. Equality has a
verdict on any two values, and it is reflexive and symmetric. No verdict changes if the operands
change sides and the operator is mirrored. Texts, truth values and the whole numbers that fit a
signed word are ordered totally. -/
theorem holds?_laws (ha : a.WellFormed) (hb : b.WellFormed) :
    (∀ op, holds? a op b = none ↔ op ≠ .equals ∧ ¬ a.Comparable b) ∧
    (a.Comparable b → ∃! op, op ∈ [.lessThan, .equals, .greaterThan] ∧ holds? a op b = some true) ∧
    (holds? a .lessThanEquals b = (holds? a .greaterThan b).map (!·) ∧
      holds? a .greaterThanEquals b = (holds? a .lessThan b).map (!·)) ∧
    (holds? a .equals a = some true ∧ holds? b .equals a = holds? a .equals b) ∧
    (∀ op : Comparison, holds? b op.mirrored a = holds? a op b) ∧
    OrdersTotally Json.str ∧ OrdersTotally Json.bool ∧
    OrdersTotally fun n : { n : Int // Json.FitsSigned n } => .int n := by
  have hNegations : holds? a .lessThanEquals b = (holds? a .greaterThan b).map (!·) ∧
      holds? a .greaterThanEquals b = (holds? a .lessThan b).map (!·) :=
    ⟨holds?_not _ _ (by decide) (by decide) (by rintro (_ | _) <;> rfl),
      holds?_not _ _ (by decide) (by decide) (by rintro (_ | _) <;> rfl)⟩
  exact ⟨fun op => holds?_eq_none_iff, existsUnique_holds?, hNegations,
    ⟨holds?_equals_self ha, holds?_mirrored ha hb .equals⟩, holds?_mirrored ha hb,
    ordersTotally_str, ordersTotally_bool, ordersTotally_int⟩

/-- Two objects that differ in the order of their fields and in the sign of a zero,
and two unlike numbers. -/
theorem holds?_laws_likeObjects :
    let a : Json := .obj [("x", .float (.zero false)), ("y", .arr [.int 1, .str "s"])]
    let b : Json := .obj [("y", .arr [.int 1, .str "s"]), ("x", .float (.zero true))]
    a.WellFormed ∧ b.WellFormed ∧ holds? a .equals b = some true ∧ holds? b .equals a = some true ∧
      holds? a .lessThan b = none ∧ holds? b .greaterThan a = none ∧
      ∃! op, op ∈ [.lessThan, .equals, .greaterThan] ∧
      holds? (.int 3) op (.float (.zero true)) = some true := by
  intro a b
  have ha : a.WellFormed := by
    simp [a, Json.WellFormed, Json.WellFormedFields, Json.WellFormedItems, Json.minInt, Json.maxInt,
      Entries.keys]
  have hb : b.WellFormed := by
    simp [b, Json.WellFormed, Json.WellFormedFields, Json.WellFormedItems, Json.minInt, Json.maxInt,
      Entries.keys]
  have hSame : holds? a .equals b = some true := by decide +kernel
  have hFails : holds? a .lessThan b = none := rfl
  obtain ⟨-, -, -, ⟨-, hSymm⟩, hMirrored, -⟩ := holds?_laws ha hb
  have hNumber : (Json.int 3).WellFormed := ⟨by decide, by decide⟩
  have hUnlike :=
    (holds?_laws (b := .float (.zero true)) hNumber trivial).2.1 (.numbers (.int 3) (.float _))
  exact ⟨ha, hb, hSame, hSymm.trans hSame, hFails, (hMirrored .lessThan).trans hFails, hUnlike⟩

end Comparison

end Orchestration
