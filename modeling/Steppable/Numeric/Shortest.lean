import Steppable.Numeric.Binary64

/-!
# The shortest decimal of a float

Among the decimals that read back as a given float, the ones with the fewest digits, and of those
the nearest to it. A float `m * 2 ^ q` owns the interval of reals that round to it, whose ends
belong to it when `m` is even. For one digit, then two, and so on, the two neighbours of the float
on the grid of decimals with that many digits are tested against this interval, in exact arithmetic.
Seventeen digits always suffice.
-/

namespace Steppable.Numeric

/-- The power of ten with exponent `n`. -/
def pow10 (n : Nat) : Nat :=
  Nat.pow 10 n

/-- A positive decimal `digits * 10 ^ exponent`. -/
structure Decimal where
  digits : Nat
  exponent : Int
  deriving Repr, DecidableEq

/-- The interval of reals that round to a float, over a common denominator. -/
structure Rounding where
  low : Nat
  value : Nat
  high : Nat
  denominator : Nat
  /-- Whether the two ends round to the float as well. -/
  closed : Bool

/-- The interval of `m * 2 ^ q`. Below a power of two the floats lie twice as close. -/
def Rounding.of (m : Nat) (q : Int) : Rounding :=
  let scale := pow2 (q - 2).toNat
  { low := (4 * m - (if m == pow2 52 then 1 else 2)) * scale
    value := 4 * m * scale
    high := (4 * m + 2) * scale
    denominator := pow2 (2 - q).toNat
    closed := m % 2 == 0 }

/-- The same interval in units of `10 ^ k`. -/
def Rounding.inUnits (r : Rounding) (k : Int) : Rounding :=
  let up := pow10 (-k).toNat
  { r with
    low := r.low * up
    value := r.value * up
    high := r.high * up
    denominator := r.denominator * pow10 k.toNat }

/-- Whether the whole number `c` of units rounds to the float. -/
def Rounding.accepts (r : Rounding) (c : Nat) : Bool :=
  let x := c * r.denominator
  if r.closed then r.low ≤ x && x ≤ r.high else r.low < x && x < r.high

/-- The neighbour of the value on the grid of whole units that rounds to the float, the nearer one
if both do, the upper one if they are equally near. -/
def Rounding.neighbour? (r : Rounding) : Option Nat :=
  let down := r.value / r.denominator
  match r.accepts down, r.accepts (down + 1) with
  | true, true =>
    some (if 2 * (r.value % r.denominator) < r.denominator then down else down + 1)
  | true, false => some down
  | false, true => some (down + 1)
  | false, false => none

/-- The exponent `e` with `10 ^ e ≤ n / d < 10 ^ (e + 1)`, for values of at least `10 ^ -350`. -/
def decimalExponent (n d : Nat) : Int :=
  (Nat.toDigits 10 (n * pow10 350 / d)).length - 351

/-- Searches the grids of `count + 1`, `count + 2`, … digits. -/
def searchDigits (r : Rounding) (top : Int) : Nat → Nat → Decimal
  | 0, count =>
    let k := top - count
    ⟨(r.inUnits k).value / (r.inUnits k).denominator, k⟩
  | fuel + 1, count =>
    let k := top - count
    match (r.inUnits k).neighbour? with
    | some c => ⟨c, k⟩
    | none => searchDigits r top fuel (count + 1)

/-- The shortest decimal that reads back as `m * 2 ^ q`, for a positive `m`. -/
def shortest (m : Nat) (q : Int) : Decimal :=
  let r := Rounding.of m q
  searchDigits r (decimalExponent r.value r.denominator) 17 0

end Steppable.Numeric
