/-!
# The exact value of a 64-bit float

A finite float is `m * 2 ^ q` with a sign. Reading the bits gives `m` and `q` as integers, and what
needs the exact value (shortest digits, truncation, remainders) is computed on them in `Nat`.
Nothing here rounds: `pack` is used on values that a float can hold.
-/

namespace Steppable.Numeric

/-- The power of two with exponent `n`. -/
def pow2 (n : Nat) : Nat :=
  Nat.pow 2 n

/-- A finite float taken apart: `m * 2 ^ q`, negated when `negative` is set. -/
structure Dyadic where
  negative : Bool
  m : Nat
  q : Int
  deriving Repr, DecidableEq

/-- The parts of the float `x`, meaningful when it is finite. -/
def Dyadic.ofFloat (x : Float) : Dyadic :=
  let bits := x.toBits.toNat
  let field := bits / pow2 52 % pow2 11
  let fraction := bits % pow2 52
  { negative := bits / pow2 63 == 1
    m := if field == 0 then fraction else fraction + pow2 52
    q := (if field == 0 then 1 else field : Nat) - 1075 }

/-- The float `m * 2 ^ q`. It must be one: the bits that `pack` drops are zero, and the value is in
the range of the format. -/
def pack (negative : Bool) (m : Nat) (q : Int) : Float :=
  let sign := if negative then pow2 63 else 0
  if m == 0 then Float.ofBits (UInt64.ofNat sign)
  else
    -- the exponent that gives 53 significant bits, or the least one of the format
    let target := max (q + m.log2 - 52) (-1074)
    let scaled := if target ≤ q then m * pow2 (q - target).toNat else m / pow2 (target - q).toNat
    Float.ofBits (UInt64.ofNat (sign + (target + 1074).toNat * pow2 52 + scaled))

/-- The integral part of `|x|` for a finite `x`. -/
def whole (x : Float) : Nat :=
  let d := Dyadic.ofFloat x
  if 0 ≤ d.q then d.m * pow2 d.q.toNat else d.m / pow2 (-d.q).toNat

/-- A finite `x` without its fraction, as an integer. -/
def truncate (x : Float) : Int :=
  if (Dyadic.ofFloat x).negative then -(whole x : Int) else whole x

/-- A finite `x` without its fraction, as a float of the same sign. -/
def truncateFloat (x : Float) : Float :=
  pack (Dyadic.ofFloat x).negative (whole x) 0

/-- The remainder of the division of two finite floats that rounds its quotient toward zero. It is
exact and takes the sign of `x`. -/
def remainder (x y : Float) : Float :=
  let a := Dyadic.ofFloat x
  let b := Dyadic.ofFloat y
  let q := min a.q b.q
  let r := a.m * pow2 (a.q - q).toNat % (b.m * pow2 (b.q - q).toNat)
  pack a.negative r q

/-- The least integer of 64 bits with a sign. -/
def minInt64 : Int := -0x8000000000000000

/-- The greatest integer of 64 bits with a sign. -/
def maxInt64 : Int := 0x7fffffffffffffff

/-- The float `x` as a 64-bit signed integer: the fraction is dropped and the result is held at the
ends of the range. What is not a finite number gives zero. -/
def toInt64 (x : Float) : Int :=
  if x.isFinite then max minInt64 (min maxInt64 (truncate x)) else 0

/-- Negative zero is stored as zero. -/
def withoutNegativeZero (x : Float) : Float :=
  if x == 0 then 0 else x

/-- Positive infinity. -/
def infinity : Float := Float.ofBits 0x7FF0000000000000

/-- The float that is not a number. -/
def nan : Float := Float.ofBits 0x7FF8000000000000

end Steppable.Numeric
