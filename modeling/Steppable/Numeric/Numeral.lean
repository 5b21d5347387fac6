import Steppable.Numeric.Shortest
import Steppable.Text.Blank

/-!
# Numbers as text

How a number is written, in base ten and in the bases up to thirty-six, and which texts are read as
numbers. Base ten uses the shortest decimal of the number, positionally from `1e-6` up to `1e21` and
with an exponent outside that range.
-/

namespace Steppable.Numeric

/-! ## Base ten -/

/-- The range of decimal exponents that are written positionally. -/
def isPositional (exponent : Int) : Bool :=
  -6 ≤ exponent && exponent ≤ 20

/-- The digits `ds` without the zeros at their end. -/
def dropTrailingZeros (ds : List Char) : List Char :=
  (ds.reverse.dropWhile (· == '0')).reverse

/-- Writes the digits `ds`, the first of which counts `10 ^ exponent`, with a decimal point. -/
def positional (ds : List Char) (exponent : Int) : List Char :=
  if exponent < 0 then
    '0' :: '.' :: (List.replicate (-exponent - 1).toNat '0' ++ ds)
  else
    let places := exponent.toNat + 1
    if ds.length ≤ places then ds ++ List.replicate (places - ds.length) '0'
    else ds.take places ++ '.' :: ds.drop places

/-- Writes the digits `ds`, the first of which counts `10 ^ exponent`, with an exponent. -/
def withExponent (ds : List Char) (exponent : Int) : List Char :=
  let mantissa := match ds with
    | d :: e :: rest => d :: '.' :: e :: rest
    | _ => ds
  let sign := if exponent < 0 then '-' else '+'
  mantissa ++ 'e' :: sign :: Nat.toDigits 10 exponent.natAbs

/-- The text of a positive decimal. -/
def Decimal.chars (d : Decimal) : List Char :=
  let all := Nat.toDigits 10 d.digits
  let exponent := d.exponent + all.length - 1
  let ds := dropTrailingZeros all
  if isPositional exponent then positional ds exponent else withExponent ds exponent

/-- The text of a number in base ten. Both zeros are written `0`. -/
def text (x : Float) : String :=
  if x.isNaN then "NaN"
  else if x.isInf then (if x > 0 then "Infinity" else "-Infinity")
  else if x == 0 then "0"
  else
    let d := Dyadic.ofFloat x
    let body := (shortest d.m d.q).chars
    String.ofList (if d.negative then '-' :: body else body)

/-! ## Other bases -/

/-- The digit of value `n`, for `n < 36`. -/
def digitChar (n : Nat) : Char :=
  if n < 10 then Char.ofNat ('0'.toNat + n) else Char.ofNat ('a'.toNat + (n - 10))

/-- The digits of an integral float, last one first, by repeated division. Above `2 ^ 53` the
quotients are rounded like every other division of floats. -/
def wholeDigits (base : Nat) : Nat → Float → List Char
  | 0, _ => []
  | fuel + 1, x =>
    if x ≥ 1 then
      digitChar (whole x % base) ::
        wholeDigits base fuel (truncateFloat (x / Float.ofNat base))
    else []

/-- Up to `limit` digits of a fraction, by repeated multiplication. -/
def fractionDigits (base : Nat) : Nat → Float → List Char
  | 0, _ => []
  | limit + 1, x =>
    if x > 0 then
      let y := x * Float.ofNat base
      digitChar (whole y) :: fractionDigits base limit (y - truncateFloat y)
    else []

/-- The text of a number in the given base, from two to thirty-six, with at most 52 digits after the
point. -/
def textInBase (base : Nat) (x : Float) : String :=
  if base == 10 || x.isNaN || x.isInf then text x
  else
    let magnitude := x.abs
    let integral := truncateFloat magnitude
    let fraction := magnitude - integral
    -- a float has at most 1024 binary digits before the point
    let digits := (wholeDigits base 1100 integral).reverse
    let left := if digits.isEmpty then ['0'] else digits
    let right := if fraction > 0 then '.' :: fractionDigits base 52 fraction else []
    String.ofList ((if x < 0 then ['-'] else []) ++ left ++ right)

/-! ## Reading -/

/-- The number written by the decimal digits `ds`. -/
def ofDigits (ds : List Char) : Nat :=
  ds.foldl (fun n d => n * 10 + (d.toNat - '0'.toNat)) 0

/-- The float nearest to `ds * 10 ^ exponent`, for decimal digits `ds`. -/
def ofDecimal (ds : List Char) (exponent : Int) : Float :=
  if exponent < 0 then Float.ofScientific (ofDigits ds) true exponent.natAbs
  else Float.ofScientific (ofDigits ds) false exponent.natAbs

/-- The value of a hexadecimal digit of either case. -/
def hexValue? (c : Char) : Option Nat :=
  if '0' ≤ c && c ≤ '9' then some (c.toNat - '0'.toNat)
  else if 'a' ≤ c && c ≤ 'f' then some (c.toNat - 'a'.toNat + 10)
  else if 'A' ≤ c && c ≤ 'F' then some (c.toNat - 'A'.toNat + 10)
  else none

/-- An exponent `e` or `E`, a sign and digits at the end of a decimal; no characters are exponent
zero. -/
def readExponent : List Char → Option Int
  | [] => some 0
  | c :: cs =>
    if c == 'e' || c == 'E' then
      let (negative, ds) := match cs with
        | '-' :: ds => (true, ds)
        | '+' :: ds => (false, ds)
        | ds => (false, ds)
      if ds.isEmpty || !ds.all Char.isDigit then none
      else some (if negative then -(ofDigits ds : Int) else ofDigits ds)
    else none

/-- An unsigned decimal: digits with at most one point among, before or after them, at least one
digit, and an exponent or none. -/
def readUnsigned (cs : List Char) : Option Float :=
  let left := cs.takeWhile Char.isDigit
  let (right, tail) := match cs.dropWhile Char.isDigit with
    | '.' :: rest => (rest.takeWhile Char.isDigit, rest.dropWhile Char.isDigit)
    | rest => ([], rest)
  if left.isEmpty && right.isEmpty then none
  else (readExponent tail).map fun e => ofDecimal (left ++ right) (e - right.length)

/-- A decimal with a sign or without one. -/
def readDecimal : List Char → Option Float
  | '-' :: cs => (readUnsigned cs).map (- ·)
  | '+' :: cs => readUnsigned cs
  | cs => readUnsigned cs

/-- The hexadecimal digits after `0x`, one leading plus sign allowed, if their value fits 64 bits.
-/
def readHex (cs : List Char) : Option Float :=
  let ds := match cs with
    | '+' :: ds => ds
    | ds => ds
  match ds.mapM hexValue? with
  | some (v :: vs) =>
    let n := (v :: vs).foldl (fun n v => n * 16 + v) 0
    if n < pow2 64 then some (Float.ofNat n) else none
  | _ => none

/-- The number that a text stands for. Blanks at the ends do not count, a text without anything else
is zero, and what is no number gives the float that is not a number. -/
def ofText (s : String) : Float :=
  match (Text.trim s).toList with
  | [] => 0
  | '0' :: 'x' :: cs | '0' :: 'X' :: cs => (readHex cs).getD nan
  | cs =>
    if cs == "Infinity".toList || cs == "+Infinity".toList then infinity
    else if cs == "-Infinity".toList then -infinity
    else (readDecimal cs).getD nan

end Steppable.Numeric
