import Mathlib.Data.String.Basic
import Mathlib.Logic.Function.Iterate
import Steppable.Proofs.Lexical.Renaming

/-!
# The laws of comparison

A comparison looks at two values in the order of their type names, so that each rule is written for
one order only. A rule for a pair that never comes in that order, a return in front of the step that
turns an order back or two kinds that share a type name are enough for `x < y` and `y > x` to come
apart. A conversion starts the comparison over, and nothing in the rules says that it does so only
once: with a variable, which is converted into itself, it would go on for ever.

**Theorem (`equality_laws`).** For two values that are no variables, `==` comes to an end with one
conversion at most, takes its operands in either order and holds where `===` does; on values of one
kind the two agree; and `null` may be replaced by `undefined` on either side of `==` and of the
order.

**Theorem (`order_laws`).** The order of `y` and `x` is that of `x` and `y` turned back, so `<` is
`>` and `<=` is `>=` with the operands exchanged. Two values without an order fail all four, two
with an order are less, greater or both at most and at least, and only one of these.

Both rest on what a pair is when the values are given the other way round (`Pair.of_comm`): either
the type names are the same, and the rules for one type are symmetric, or the pair is the same but
for the note that it has been turned.
-/

namespace Steppable

namespace Value

open Float.Model Float.Model.UnpackedFloat

variable {x y : Value} {a b : Float}

/-! ## Numbers -/

theorem compare_unpacked_swap (u v : UnpackedFloat) :
    (u.compare v).map Ordering.swap = v.compare u := by
  have signs (s t : Sign) : (compare s t).swap = compare t s := by cases s <;> cases t <;> rfl
  have sizes (e e' : Int) (m m' : Nat) :
      ((compare e e').then (compare m m')).swap = (compare e' e).then (compare m' m) := by
    rw [Ordering.swap_then, Int.compare_swap, Nat.compare_swap]
  cases u with
  | notANumber => cases v <;> rfl
  | infinity s =>
    cases v with
    | infinity t => exact congrArg some (signs s t)
    | _ => cases s <;> rfl
  | zero s =>
    cases v with
    | infinity t | finite t => cases t <;> rfl
    | _ => rfl
  | finite s m e =>
    cases v with
    | notANumber => rfl
    | infinity t => cases t <;> rfl
    | zero t => cases s <;> rfl
    | finite t m' e' =>
      cases s <;> cases t
      case positive.positive => exact congrArg some (sizes e e' m m')
      case negative.negative => exact congrArg some (congrArg Ordering.swap (sizes e e' m m'))
      all_goals rfl

theorem float_lt_iff : a < b ↔ a.toModel.unpack.compare b.toModel.unpack = some .lt := by
  show decide (Float.Model.lt a.toModel b.toModel = true) = true ↔ _
  rw [decide_eq_true_iff]
  exact beq_iff_eq

theorem float_beq_iff : (a == b) = true ↔ a.toModel.unpack.compare b.toModel.unpack = some .eq := by
  show (a.toModel.unpack.compare b.toModel.unpack == some .eq) = true ↔ _
  exact beq_iff_eq

/-- Two numbers are ordered as their sign, exponent and mantissa say. -/
theorem compareNumbers_eq (a b : Float) :
    compareNumbers a b = a.toModel.unpack.compare b.toModel.unpack := by
  have greater : b < a ↔ a.toModel.unpack.compare b.toModel.unpack = some .gt := by
    rw [float_lt_iff, ← compare_unpacked_swap]
    rcases a.toModel.unpack.compare b.toModel.unpack with _ | _ | _ | _ <;> simp
  simp only [compareNumbers, float_lt_iff, float_beq_iff, gt_iff_lt, greater]
  rcases a.toModel.unpack.compare b.toModel.unpack with _ | _ | _ | _ <;> simp

theorem compareNumbers_swap (a b : Float) :
    (compareNumbers a b).map Ordering.swap = compareNumbers b a := by
  rw [compareNumbers_eq, compareNumbers_eq, compare_unpacked_swap]

theorem compareNumbers_nan (b : Float) : compareNumbers Numeric.nan b = none := by
  rw [compareNumbers_eq]
  rfl

theorem float_beq_comm (a b : Float) : (a == b) = (b == a) := by
  rw [Bool.eq_iff_iff, float_beq_iff, float_beq_iff, ← compare_unpacked_swap]
  rcases b.toModel.unpack.compare a.toModel.unpack with _ | _ | _ | _ <;> simp

/-! ## Pairs -/

@[simp]
theorem withoutNull_withoutNull (v : Value) : v.withoutNull.withoutNull = v.withoutNull := by
  cases v <;> rfl

/-- The values the other way round: of one type they are kept as they are given, of two types they
end up as the same pair. -/
theorem Pair.of_comm (x y : Value) :
    (x.withoutNull.typeName = y.withoutNull.typeName ∧
      Pair.of x y = ⟨x.withoutNull, y.withoutNull, false⟩ ∧
      Pair.of y x = ⟨y.withoutNull, x.withoutNull, false⟩) ∨
    ((Pair.of x y).x.typeName ≠ (Pair.of x y).y.typeName ∧
      Pair.of y x = { Pair.of x y with swapped := !(Pair.of x y).swapped }) := by
  rcases lt_trichotomy x.withoutNull.typeName y.withoutNull.typeName with h | h | h
  · exact .inr (by simp [Pair.of, h, h.not_gt, h.ne])
  · exact .inl (by simp [Pair.of, h])
  · exact .inr (by simp [Pair.of, h, h.not_gt, h.ne])

theorem Pair.of_withoutNull_left (x y : Value) : Pair.of x.withoutNull y = Pair.of x y := by
  simp only [Pair.of, withoutNull_withoutNull]

theorem Pair.of_withoutNull_right (x y : Value) : Pair.of x y.withoutNull = Pair.of x y := by
  simp only [Pair.of, withoutNull_withoutNull]

/-- What holds of both values holds of both sides of their pair. -/
theorem Pair.of_sides {P : Value → Prop} (hx : P x.withoutNull) (hy : P y.withoutNull) :
    P (Pair.of x y).x ∧ P (Pair.of x y).y := by
  simp only [Pair.of]
  split
  · exact ⟨hy, hx⟩
  · exact ⟨hx, hy⟩

/-! ## Equality -/

theorem strictEqual_comm (x y : Value) : strictEqual x y = strictEqual y x := by
  cases x <;> cases y <;> first
    | exact float_beq_comm _ _
    | exact BEq.comm
    | rfl

theorem equalVia_of_typeName {again : Value → Value → Bool} {p : Pair}
    (h : p.x.typeName = p.y.typeName) : p.equalVia again = strictEqual p.x p.y := by
  simp [Pair.equalVia, h]

theorem looseEqual_of_typeName (h : x.withoutNull.typeName = y.withoutNull.typeName) :
    looseEqual x y = strictEqual x.withoutNull y.withoutNull := by
  obtain ⟨-, hp, -⟩ | ⟨hne, -⟩ := Pair.of_comm x y
  · rw [looseEqual, hp, equalVia_of_typeName h]
  · refine absurd ?_ hne
    simp only [Pair.of]
    split
    · exact h.symm
    · exact h

theorem looseEqual_comm (x y : Value) : looseEqual y x = looseEqual x y := by
  obtain ⟨h, -, -⟩ | ⟨-, hflip⟩ := Pair.of_comm x y
  · rw [looseEqual_of_typeName h, looseEqual_of_typeName h.symm, strictEqual_comm]
  · rw [looseEqual, looseEqual, hflip]
    rfl

/-- Two values of one of the ten kinds. -/
def SameKind (x y : Value) : Prop :=
  x.ctorIdx = y.ctorIdx

theorem sameKind_of_strictEqual (h : strictEqual x y = true) : x.SameKind y := by
  cases x <;> cases y <;> first
    | rfl
    | cases h

theorem looseEqual_of_sameKind (h : x.SameKind y) : looseEqual x y = strictEqual x y := by
  have kinds : x.withoutNull.typeName = y.withoutNull.typeName ∧
      strictEqual x.withoutNull y.withoutNull = strictEqual x y := by
    cases x <;> cases y <;> first
      | exact ⟨rfl, rfl⟩
      | cases h
  rw [looseEqual_of_typeName kinds.1, kinds.2]

/-! ## The end of a comparison -/

/-- One round of the comparison of two values; `again` is what compares the result of a conversion.
-/
def equalRound (again : Value → Value → Bool) (x y : Value) : Bool :=
  (Pair.of x y).equalVia again

/-- The comparison of `x` and `y` says `b` after `n` conversions at most, whatever a further round
would say. -/
def EqualWithin (n : Nat) (x y : Value) (b : Bool) : Prop :=
  ∀ again, equalRound^[n + 1] again x y = b

theorem EqualWithin.mono {n k : Nat} {b : Bool} (h : EqualWithin n x y b) :
    EqualWithin (n + k) x y b := by
  intro again
  rw [Nat.add_right_comm, Function.iterate_add_apply]
  exact h _

/-- A comparison comes to one answer only. -/
theorem EqualWithin.unique {n k : Nat} {b c : Bool} (hb : EqualWithin n x y b)
    (hc : EqualWithin k x y c) : b = c := by
  have h₁ := hb.mono (k := k) fun _ _ => true
  have h₂ := hc.mono (k := n) fun _ _ => true
  rw [Nat.add_comm k n] at h₂
  exact h₁.symm.trans h₂

/-- A variable is converted into itself, so a number is compared with it for ever. -/
theorem not_equalWithin_reference (n : Nat) (a : Float) (c : Nat) (b : Bool) :
    ¬ EqualWithin n (number a) (reference c) b := by
  have once (again : Value → Value → Bool) :
      equalRound again (number a) (reference c) = again (number a) (reference c) := by
    have h : ¬ "object" < "number" := by decide
    simp [equalRound, Pair.of, Pair.equalVia, withoutNull, typeName, toPrimitive, h]
  have rounds (again : Value → Value → Bool) (k : Nat) :
      equalRound^[k] again (number a) (reference c) = again (number a) (reference c) := by
    induction k with
    | zero => rfl
    | succ k ih => rw [Function.iterate_succ_apply', once, ih]
  intro h
  have := h fun _ _ => !b
  rw [rounds] at this
  cases b <;> cases this

/-- Without an object there is nothing to convert. -/
theorem equalRound_congr (hx : x.typeName ≠ "object") (hy : y.typeName ≠ "object")
    (again again' : Value → Value → Bool) : equalRound again x y = equalRound again' x y := by
  have drop : ∀ v : Value, v.typeName ≠ "object" → v.withoutNull.typeName ≠ "object" := by
    intro v hv
    cases v <;> first
      | exact hv
      | simp [withoutNull, typeName]
  obtain ⟨h₁, h₂⟩ := Pair.of_sides (P := fun v => v.typeName ≠ "object") (drop x hx) (drop y hy)
  simp [equalRound, Pair.equalVia, h₁, h₂]

theorem typeName_toPrimitive (hr : x.isReference = false) (hn : x ≠ null) :
    x.toPrimitive.typeName ≠ "object" := by
  cases x with
  | null => exact absurd rfl hn
  | reference => cases hr
  | _ => simp [toPrimitive, typeName]

theorem equalWithin_one (hx : x.isReference = false) (hy : y.isReference = false) :
    EqualWithin 1 x y (looseEqual x y) := by
  intro again
  obtain ⟨hx', hy'⟩ := isReference_pair hx hy
  have proper : ∀ v : Value, v.withoutNull ≠ null := by intro v; cases v <;> simp [withoutNull]
  obtain ⟨hnx, hny⟩ := Pair.of_sides (P := (· ≠ null)) (proper x) (proper y)
  show (Pair.of x y).equalVia (equalRound again) = (Pair.of x y).equalVia (equalRound _)
  generalize Pair.of x y = p at *
  have px := typeName_toPrimitive hx' hnx
  have py := typeName_toPrimitive hy' hny
  -- the other side of a converted object has another type, so it is no object either
  by_cases same : p.x.typeName = p.y.typeName
  · rw [equalVia_of_typeName same, equalVia_of_typeName same]
  · simp only [Pair.equalVia]
    split_ifs with h₁ h₂ h₃ h₄ h₅
    · rfl
    · rfl
    · rfl
    · have hxo : p.x.typeName ≠ "object" := fun h => same (h.trans (by simp_all))
      exact equalRound_congr hxo py _ _
    · have hyo : p.y.typeName ≠ "object" := fun h => same (by simp_all)
      exact equalRound_congr px hyo _ _
    · rfl

/-! ## Order -/

theorem compare_string_swap (s t : String) : (compare s t).swap = compare t s :=
  Std.OrientedOrd.eq_swap.symm

/-- The order of two values that are neither `null` nor `undefined`. -/
def order (x y : Value) : Option Ordering :=
  match x, y with
  | string s, string t => some (compare s t)
  | date i, date j => some (compare i j)
  | x, y => compareNumbers x.toNumber y.toNumber

theorem order_swap (x y : Value) : (order x y).map Ordering.swap = order y x := by
  cases x <;> cases y <;> first
    | exact compareNumbers_swap _ _
    | exact congrArg some (compare_string_swap _ _)
    | exact congrArg some (Int.compare_swap _ _)

theorem compare_pair (s : Bool) (h : y ≠ undefined) :
    Pair.compare? ⟨x, y, s⟩ = (order x y).map fun o => if s then o.swap else o := by
  cases y with
  | undefined => exact absurd rfl h
  | _ => cases x <;> rfl

theorem compare_undefined (s : Bool) (h : x ≠ undefined) :
    Pair.compare? ⟨x, undefined, s⟩ = none := by
  cases x with
  | undefined => exact absurd rfl h
  | _ => rfl

/-- Values that are kept as they are given: `undefined` alone has no order with what counts as no
number, and none before any other value. -/
theorem compare_kept (x y : Value) :
    Pair.compare? ⟨y, x, false⟩ = (Pair.compare? ⟨x, y, false⟩).map Ordering.swap := by
  have undefined_first (v : Value) : order undefined v = none := compareNumbers_nan _
  by_cases hx : x = undefined <;> by_cases hy : y = undefined
  · rw [hx, hy]
    rfl
  · rw [hx, compare_undefined _ hy, compare_pair _ hy, undefined_first]
    rfl
  · rw [hy, compare_undefined _ hx, compare_pair _ hx, undefined_first]
    rfl
  · rw [compare_pair _ hx, compare_pair _ hy, ← order_swap x y]
    cases order x y <;> simp

/-- Turning a pair of two types turns its order. -/
theorem compare_turned {p : Pair} (h : p.x.typeName ≠ p.y.typeName) :
    Pair.compare? { p with swapped := !p.swapped } = p.compare?.map Ordering.swap := by
  obtain ⟨x, y, s⟩ := p
  by_cases hy : y = undefined
  · subst hy
    cases x with
    | undefined => exact absurd rfl h
    | _ => rfl
  · rw [compare_pair _ hy, compare_pair _ hy]
    cases s <;> cases order x y <;> simp

theorem compare_swap (x y : Value) : compare? y x = (compare? x y).map Ordering.swap := by
  obtain ⟨-, h₁, h₂⟩ | ⟨hne, hflip⟩ := Pair.of_comm x y
  · rw [compare?, compare?, h₁, h₂, compare_kept]
  · rw [compare?, compare?, hflip, compare_turned hne]

end Value

/-! ## The laws -/

open Value

variable {x y : Value}

/-- What `==` and `===` keep to on two values. -/
structure EqualityLaws (x y : Value) : Prop where
  /-- The comparison comes to an end, with one conversion at most. -/
  ends : EqualWithin 1 x y (looseEqual x y)
  symmetric : looseEqual y x = looseEqual x y
  of_strict : strictEqual x y = true → looseEqual x y = true
  same_kind : x.SameKind y → looseEqual x y = strictEqual x y
  /-- `null` in either operand counts as `undefined`. -/
  null : ∀ op ∈ [Comparison.equal, .less, .lessOrEqual, .greater, .greaterOrEqual],
    op.apply x.withoutNull y = op.apply x y ∧ op.apply x y.withoutNull = op.apply x y

/-- Equality of values that are no variables: it comes to an end, in either order of the operands,
follows from strict equality, is strict equality on values of one kind, and takes `null` for
`undefined`. -/
theorem equality_laws (hx : x.isReference = false) (hy : y.isReference = false) :
    EqualityLaws x y where
  ends := equalWithin_one hx hy
  symmetric := looseEqual_comm x y
  of_strict := fun h => (looseEqual_of_sameKind (sameKind_of_strictEqual h)).trans h
  same_kind := looseEqual_of_sameKind
  null := by
    simp [Comparison.apply, ordered, looseEqual, compare?, Pair.of_withoutNull_left,
      Pair.of_withoutNull_right]

/-- A date and `null`: the date is an object until it is converted, and `null` has the type name of
an object but counts as `undefined`. -/
theorem equality_laws_date_null :
    (Value.date 0).isReference = false ∧ Value.null.isReference = false ∧
      EqualityLaws (.date 0) .null :=
  ⟨rfl, rfl, equality_laws rfl rfl⟩

/-- Whether an operator holds of two values. -/
def Comparison.Holds (op : Comparison) (x y : Value) : Prop :=
  op.apply x y = .ok (.boolean true)

/-- What the four operators of the order keep to on two values. -/
structure OrderLaws (x y : Value) : Prop where
  turned : compare? y x = (compare? x y).map Ordering.swap
  less : Comparison.less.apply x y = Comparison.greater.apply y x
  lessOrEqual : Comparison.lessOrEqual.apply x y = Comparison.greaterOrEqual.apply y x
  incomparable : compare? x y = none →
    ∀ op ∈ [Comparison.less, .greater, .lessOrEqual, .greaterOrEqual],
      op.apply x y = .ok (.boolean false)
  /-- Exactly one of less, greater and both at most and at least. -/
  comparable : compare? x y ≠ none →
    (Comparison.less.Holds x y ∧ ¬ Comparison.greater.Holds x y ∧
      ¬ (Comparison.lessOrEqual.Holds x y ∧ Comparison.greaterOrEqual.Holds x y)) ∨
    (¬ Comparison.less.Holds x y ∧ Comparison.greater.Holds x y ∧
      ¬ (Comparison.lessOrEqual.Holds x y ∧ Comparison.greaterOrEqual.Holds x y)) ∨
    (¬ Comparison.less.Holds x y ∧ ¬ Comparison.greater.Holds x y ∧
      Comparison.lessOrEqual.Holds x y ∧ Comparison.greaterOrEqual.Holds x y)

theorem apply_turned (x y : Value) (test test' : Ordering → Bool)
    (h : ∀ o, test' o = test o.swap) : ordered test' x y = ordered test y x := by
  rw [ordered, ordered, compare_swap x y]
  cases compare? x y <;> simp [h]

/-- The order of any two values: turned with its operands, and with exactly one outcome unless the
two cannot be compared. -/
theorem order_laws (x y : Value) : OrderLaws x y where
  turned := compare_swap x y
  less := congrArg Except.ok (apply_turned x y _ _ fun o => by cases o <;> rfl)
  lessOrEqual := congrArg Except.ok (apply_turned x y _ _ fun o => by cases o <;> rfl)
  incomparable := by
    intro h
    simp [Comparison.apply, ordered, h]
  comparable := by
    intro h
    obtain ⟨o, ho⟩ := Option.ne_none_iff_exists'.1 h
    cases o <;> simp [Comparison.Holds, Comparison.apply, ordered, ho]

end Steppable
