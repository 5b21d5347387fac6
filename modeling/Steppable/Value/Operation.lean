import Steppable.Value.Comparison

/-!
# Operators on values

The results of the operators on plain values. The two connectives are not here, because they decide
which operands are evaluated. An operator that the language reads but does not carry out gives the
message of the error to raise.
-/

namespace Steppable

open Value

def unsupported (symbol : String) : String :=
  "Unsupported operator: " ++ symbol

/-- The 64 bits of an integer that fits them. -/
def toWord (n : Int) : BitVec 64 :=
  BitVec.ofInt 64 n

/-- A bitwise operation on two values. -/
def bitwise (op : BitVec 64 → BitVec 64 → BitVec 64) (l r : Value) : Value :=
  ofInt (op (toWord l.toInt64) (toWord r.toInt64)).toInt

/-- A shift of the 64-bit integer of `l`. A count that is not a number or above 64 shifts by
nothing, a negative one shifts all bits out. -/
def shift (op : BitVec 64 → Nat → Int) (l r : Value) : Value :=
  let n := l.toInt64
  let count := r.toNumber
  if n == 0 then .number 0
  else if count.isNaN || count > 64 then ofInt n
  else if count < 0 then .number 0
  else ofInt (op (toWord n) (Numeric.toInt64 count).toNat)

/-- The remainder of a division, with the sign of the dividend. -/
def modulo (l r : Float) : Value :=
  if r == 0 || l.isInf || l.isNaN || r.isNaN then .number Numeric.nan
  else if r.isInf then ofNumber l
  else ofNumber (Numeric.remainder l r)

/-- The sum of two numbers, or two texts joined when either value is a text. -/
def plus (l r : Value) : Value :=
  match l.toPrimitive, r.toPrimitive with
  | .string s, v => .string (s ++ v.text)
  | v, .string s => .string (v.text ++ s)
  | l, r => ofNumber (l.toNumber + r.toNumber)

def Arith.apply (op : Arith) (l r : Value) : Value :=
  match op with
  | .plus => Steppable.plus l r
  | .minus => ofNumber (l.toNumber - r.toNumber)
  | .times => ofNumber (l.toNumber * r.toNumber)
  | .divide => ofNumber (l.toNumber / r.toNumber)
  | .modulo => Steppable.modulo l.toNumber r.toNumber
  | .bitAnd => bitwise (· &&& ·) l r
  | .bitOr => bitwise (· ||| ·) l r
  | .bitXor => bitwise (· ^^^ ·) l r
  | .shiftLeft => shift (fun w n => (w <<< n).toInt) l r
  | .shiftRight => shift (fun w n => (w.sshiftRight n).toInt) l r
  | .shiftRightUnsigned => shift (fun w n => (w >>> n).toNat) l r

/-- Whether two values are ordered as `test` says; never if they cannot be compared. -/
def ordered (test : Ordering → Bool) (l r : Value) : Value :=
  .boolean ((Value.compare? l r).any test)

def Comparison.apply (op : Comparison) (l r : Value) : Except String Value :=
  match op with
  | .equal => .ok (.boolean (looseEqual l r))
  | .different => .ok (.boolean !(looseEqual l r))
  | .strictEqual => .ok (.boolean (Value.strictEqual l r))
  | .strictDifferent => .ok (.boolean !(Value.strictEqual l r))
  | .less => .ok (ordered (· == .lt) l r)
  | .greater => .ok (ordered (· == .gt) l r)
  | .lessOrEqual => .ok (ordered (· != .gt) l r)
  | .greaterOrEqual => .ok (ordered (· != .lt) l r)
  | .instanceOf => .error (unsupported op.symbol)

/-- The result of an operator on two plain values. -/
def BinaryOp.apply (op : BinaryOp) (l r : Value) : Except String Value :=
  match op with
  | .arith op => .ok (op.apply l r)
  | .comparison op => op.apply l r
  | .connective op => .error (unsupported op.symbol)

/-- The result of an operator on one plain value. -/
def UnaryOp.apply (op : UnaryOp) (v : Value) : Except String Value :=
  match op with
  | .minus => .ok (ofNumber (-v.toPrimitive.toNumber))
  | .plus => .ok (ofNumber v.toPrimitive.toNumber)
  | .not => .ok (.boolean !v.toBoolean)
  | .bitNot => .ok (ofInt (-v.toInt64 - 1))
  | .typeOf => .ok (.string v.typeName)
  | .void => .ok .undefined
  | .delete | .new => .error (unsupported op.symbol)

end Steppable
