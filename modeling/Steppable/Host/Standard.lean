import Steppable.Host.Rule

/-!
# The standard names and the members of values

Every host can offer the conversions `Number`, `String`, `Boolean` and `Date`. The members of values
are given by rules of the same form, tried on the accessor whose left operand is the value.
-/

namespace Steppable.Host

/-- A rule for a call of `name`, whose handler looks at the arguments only. -/
def onCall (name : String) (arity : Nat) (f : List Value → Answer) : Rule :=
  ⟨[name], .call arity, answering f⟩

/-- A rule for reading the member `name`. -/
def onGet (name : String) (v : Value) : Rule :=
  ⟨[], .get name, answering fun _ => .value v⟩

/-- The moment named by the arguments of `Date`: year, month, day and time of day. Negative and
missing parts are zero; then year, month and day are brought into their ranges. -/
def dateMoment (as : List Value) : Calendar.Moment :=
  let p := Calendar.Moment.ofParts (as.map fun a => max a.toInt64 0)
  { p with
    year := min p.year 9999
    month := max 1 (min p.month 12)
    day := max 1 (min p.day 31) }

def dateOf (as : List Value) : Answer :=
  match (dateMoment as).toMillis? with
  | some ms => .value (.date ms)
  | none => .fail "Invalid date."

/-- The conversions that every host can offer. -/
def standard : List Rule :=
  [ onCall "Number" 1 fun as =>
      .value (.ofNumber (match as with | [] => 0 | a :: _ => a.toPrimitive.toNumber)),
    onCall "String" 1 fun as =>
      .value (.string (match as with | [] => "" | a :: _ => a.text)),
    onCall "Boolean" 1 fun as =>
      .value (.boolean (match as with | [] => false | a :: _ => a.toBoolean)),
    onCall "Date" 7 dateOf ]

/-! ## Members -/

/-- Answers `toString` of a number, in base ten or in the base given. -/
def numberText (x : Float) (as : List Value) : Answer :=
  let base : Int := match as with
    | [] => 10
    | a :: _ => a.toInt64
  if 2 ≤ base && base ≤ 36 then .value (.string (Numeric.textInBase base.toNat x))
  else .fail "Radix must be between 2 and 36."

/-- The character of a text at the place given, as a text; none outside the text. -/
def charAt (s : String) (as : List Value) : Answer :=
  let i : Int := match as with
    | [] => 0
    | a :: _ => a.toInt64
  let found := if i < 0 then none else s.toList[i.toNat]?
  .value (.string (match found with | some c => String.singleton c | none => ""))

/-- The members of a value. -/
def members (v : Value) : List Rule :=
  match v with
  | .number x => [onCall "toString" 1 (numberText x)]
  | .string s =>
    [ onGet "length" (.ofNumber (Float.ofNat s.length)),
      onCall "charAt" 1 (charAt s),
      onCall "toString" 0 fun _ => .value v ]
  | .boolean _ | .date _ => [onCall "toString" 0 fun _ => .value (.string v.text)]
  | .error e => [onGet "message" (.string e.message)]
  | .undefined | .null | .function _ | .signal .. | .reference _ => []

end Steppable.Host
