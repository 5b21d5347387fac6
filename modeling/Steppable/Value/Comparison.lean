import Steppable.Value.Coercion

/-!
# Comparing values

Strict equality does not convert. Loose equality and the order take `null` for `undefined` and look
at the two values in the order of their type names, so that each rule is written for one order only.
-/

namespace Steppable.Value

/-- Equality by `===`: the same value of the same kind. What is not a number equals nothing, and
functions and errors are equal to themselves only. -/
def strictEqual : Value → Value → Bool
  | undefined, undefined | null, null => true
  | number a, number b => a == b
  | string a, string b => a == b
  | boolean a, boolean b => a == b
  | date a, date b => a == b
  | function a, function b => a.id == b.id
  | error a, error b => a.id == b.id
  | reference a, reference b => a == b
  | _, _ => false

/-- Takes `null` for `undefined`. -/
def withoutNull : Value → Value
  | null => undefined
  | v => v

/-- Two values for a comparison: without `null`, the smaller type name first. -/
structure Pair where
  x : Value
  y : Value
  /-- The values stand in the other order than they were given. -/
  swapped : Bool

def Pair.of (x y : Value) : Pair :=
  let x := x.withoutNull
  let y := y.withoutNull
  if y.typeName < x.typeName then ⟨y, x, true⟩ else ⟨x, y, false⟩

/-- Loose equality of an ordered pair; where an object has to be converted first, `again` compares
the result of the conversion. -/
def Pair.equalVia (again : Value → Value → Bool) (p : Pair) : Bool :=
  let tx := p.x.typeName
  let ty := p.y.typeName
  if tx == ty then strictEqual p.x p.y
  else if tx == "number" && ty == "string" then p.x.toNumber == p.y.toNumber
  else if tx == "boolean" || ty == "boolean" then p.x.toBoolean == p.y.toBoolean
  else if ty == "object" && tx != "undefined" then again p.x p.y.toPrimitive
  else if tx == "object" && ty != "undefined" then again p.x.toPrimitive p.y
  else false

/-- Equality by `==`. The primitive value of a date or an error is no object, so converting once is
enough. -/
def looseEqual (x y : Value) : Bool :=
  (Pair.of x y).equalVia fun x y => (Pair.of x y).equalVia fun _ _ => false

/-- The order of two numbers, unless one is not a number. -/
def compareNumbers (a b : Float) : Option Ordering :=
  if a < b then some .lt
  else if a == b then some .eq
  else if a > b then some .gt
  else none

/-- The order of an ordered pair. -/
def Pair.compare? (p : Pair) : Option Ordering :=
  match p.x, p.y with
  | undefined, undefined => some .eq
  | _, undefined => none
  | x, y =>
    let order := match x, y with
      | string a, string b => some (compare a b)
      | date a, date b => some (compare a b)
      | x, y => compareNumbers x.toNumber y.toNumber
    order.map fun o => if p.swapped then o.swap else o

/-- How two values are ordered; `none` if they cannot be compared. -/
def compare? (x y : Value) : Option Ordering :=
  (Pair.of x y).compare?

end Steppable.Value
