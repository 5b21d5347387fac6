import Steppable.Tree.Listing

/-!
# Conversions between kinds of values

What a value counts as where a truth value, a number, an integer or a primitive value is needed.
Every conversion is defined on every value.
-/

namespace Steppable.Value

/-- A number as it is stored: zero has no sign. -/
def ofNumber (x : Float) : Value :=
  .number (Numeric.withoutNegativeZero x)

/-- An integer as the nearest number. -/
def ofInt (n : Int) : Value :=
  ofNumber (Float.ofInt n)

def isError : Value → Bool
  | error _ => true
  | _ => false

def isSignal : Value → Bool
  | signal .. => true
  | _ => false

/-- Errors and signals: what a node above adopts as its own result without doing anything else. -/
def isAbrupt (v : Value) : Bool :=
  v.isError || v.isSignal

def isNaN : Value → Bool
  | number x => x.isNaN
  | _ => false

def toBoolean : Value → Bool
  | undefined | null | error _ | signal .. => false
  | boolean b => b
  | number x => !(x == 0 || x.isNaN)
  | string s => !s.isEmpty
  | date _ | function _ | reference _ => true

def toNumber : Value → Float
  | null => 0
  | boolean b => if b then 1 else 0
  | number x => x
  | string s => Numeric.ofText s
  | date ms => Float.ofInt ms
  | undefined | function _ | error _ | signal .. | reference _ => Numeric.nan

/-- The integer that the bitwise operators work on. -/
def toInt64 (v : Value) : Int :=
  Numeric.toInt64 v.toNumber

/-- The primitive value that a date, a function, an error or a signal counts as. -/
def toPrimitive (v : Value) : Value :=
  match v with
  | date ms => number (Float.ofInt ms)
  | error _ | signal .. => undefined
  | function _ => string v.text
  | _ => v

/-- A function or an error as a new object with the given identity, also as the value of a signal;
other values are the same everywhere. -/
def renewed (id : Nat) : Value → Value
  | function f => function { f with id }
  | error e => error { e with id }
  | signal k culprit v => signal k culprit (renewed id v)
  | v => v

end Steppable.Value
