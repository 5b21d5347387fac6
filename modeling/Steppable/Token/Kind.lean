import Steppable.Tree.Operator

/-!
# Kinds of tokens

What a token can be, the classes and operator levels of the kinds, and how a kind is named in a
message. The level of an operator decides how strongly it binds: `precedence` is twice the level, so
that an operator that groups to the right can ask for an operand one step below its own.

A kind also has a packed code: a class bit, the level and an index within the class in one signed
32-bit number that is negative exactly for errors and the end of the input.
-/

namespace Steppable

/-- Why the text could not be read as a token. -/
inductive LexicalError where
  | invalidChar
  | unterminatedString
  | unicodeEscape
  | hexEscape
  | returnInContinuation
  | unterminatedNumber
  | numberValue
  | identifierAfterNumber
  | unterminatedRegex
  deriving Repr, DecidableEq, Inhabited

/-- How a number is spelled. -/
inductive NumberForm where
  | float | integer | hex | nan | infinity
  deriving Repr, DecidableEq, Inhabited

namespace Token

inductive Kind where
  /-- No token has been read yet. -/
  | none
  | endOfInput
  | error (cause : LexicalError)
  | identifier
  | string
  | regex
  | number (form : NumberForm)
  | starComment
  | lineComment
  | comma | questionMark | colon | semicolon | dot
  | openPar | closePar | openSquare | closeSquare | openCurly | closeCurly
  | assign
  | compound (op : Arith)
  | binary (op : BinaryOp)
  | not | bitNot | increment | decrement | typeOf | void | delete | new
  deriving Repr, DecidableEq, Inhabited

/-- The classes of kinds that are neither errors nor the end of the input. -/
inductive Class where
  | assign | binary | compare | logical | unary | punctuation | bracket
  | identifier | number | string | comment | regex
  deriving Repr, DecidableEq, Inhabited

namespace Kind

def class? : Kind → Option Class
  | none | endOfInput | error _ => Option.none
  | identifier => some .identifier
  | string => some .string
  | regex => some .regex
  | number _ => some .number
  | starComment | lineComment => some .comment
  | comma | questionMark | colon | semicolon | dot => some .punctuation
  | openPar | closePar | openSquare | closeSquare | openCurly | closeCurly => some .bracket
  | assign | compound _ => some .assign
  | binary (.arith _) => some .binary
  | binary (.comparison _) => some .compare
  | binary (.connective _) => some .logical
  | not | bitNot | increment | decrement | typeOf | void | delete | new => some .unary

def isError : Kind → Bool
  | error _ => true
  | _ => false

def isEndOfInput (k : Kind) : Bool :=
  k == endOfInput

/-- The kinds after which no further token is read. -/
def isLast (k : Kind) : Bool :=
  k.isError || k.isEndOfInput

def isIdentifier (k : Kind) : Bool := k.class? == some .identifier
def isNumber (k : Kind) : Bool := k.class? == some .number
def isString (k : Kind) : Bool := k.class? == some .string
def isRegex (k : Kind) : Bool := k.class? == some .regex
def isComment (k : Kind) : Bool := k.class? == some .comment
def isAssignment (k : Kind) : Bool := k.class? == some .assign

/-! ## Operator levels -/

/-- How strongly the token binds, from 1 (a comma) to 15 (member access); 0 when it is no operator.
-/
def level : Kind → Nat
  | comma => 1
  | assign | compound _ => 2
  | questionMark => 3
  | binary (.connective .or) => 4
  | binary (.connective .and) => 5
  | binary (.arith .bitOr) => 6
  | binary (.arith .bitXor) => 7
  | binary (.arith .bitAnd) => 8
  | binary (.comparison .equal) | binary (.comparison .different)
  | binary (.comparison .strictEqual) | binary (.comparison .strictDifferent) => 9
  | binary (.comparison _) => 10
  | binary (.arith .shiftLeft) | binary (.arith .shiftRight)
  | binary (.arith .shiftRightUnsigned) => 11
  | binary (.arith .plus) | binary (.arith .minus) => 12
  | binary (.arith _) => 13
  | not | bitNot | increment | decrement | typeOf | void | delete | new => 14
  | dot | openPar | openSquare => 15
  | _ => 0

def precedence (k : Kind) : Nat :=
  2 * k.level

/-- The operator that stands before an operand when the token does. -/
def unary? : Kind → Option UnaryOp
  | binary (.arith .minus) => some .minus
  | binary (.arith .plus) => some .plus
  | not => some .not
  | bitNot => some .bitNot
  | typeOf => some .typeOf
  | void => some .void
  | delete => some .delete
  | new => some .new
  | _ => Option.none

def binary? : Kind → Option BinaryOp
  | binary op => some op
  | _ => Option.none

/-- The kind of the operator that a compound assignment applies. -/
def compoundOf? : Kind → Option Kind
  | compound op => some (binary (.arith op))
  | _ => Option.none

/-! ## Texts -/

/-- The spelling of a kind that has only one. -/
def spelling? : Kind → Option String
  | comma => some ","
  | questionMark => some "?"
  | colon => some ":"
  | semicolon => some ";"
  | dot => some "."
  | openPar => some "("
  | closePar => some ")"
  | openSquare => some "["
  | closeSquare => some "]"
  | openCurly => some "\x7b"
  | closeCurly => some "\x7d"
  | assign => some "="
  | compound op => some (op.symbol ++ "=")
  | binary op => some op.symbol
  | not => some "!"
  | bitNot => some "~"
  | increment => some "++"
  | decrement => some "--"
  | typeOf => some "typeof"
  | void => some "void"
  | delete => some "delete"
  | new => some "new"
  | number .nan => some "NaN"
  | number .infinity => some "Infinity"
  | _ => Option.none

end Kind

end Token

def LexicalError.message : LexicalError → String
  | invalidChar => "invalid character"
  | unterminatedString => "unterminated string"
  | unicodeEscape => "invalid \\u escape in string (4 hex digits expected)"
  | hexEscape => "invalid \\x escape in string (2 hex digits expected)"
  | returnInContinuation => "carriage return without line feed in string line continuation"
  | unterminatedNumber => "unterminated number"
  | numberValue => "invalid number value"
  | identifierAfterNumber => "identifier starts immediately after number"
  | unterminatedRegex => "unterminated regular expression"

namespace Token.Kind

/-- How a message names the kind. -/
def describe (k : Kind) : String :=
  match k.spelling? with
  | some s => s
  | Option.none =>
    match k with
    | endOfInput => "end of input"
    | error cause => cause.message
    | starComment => "/* comment */"
    | lineComment => "// comment"
    | identifier => "identifier"
    | string => "string"
    | number _ => "number"
    | regex => "regular expression"
    | _ => "unknown token"

end Token.Kind

/-! ## Packed codes -/

/-- The bits that distinguish the errors. -/
def LexicalError.bits : LexicalError → Int
  | invalidChar => 1
  | unterminatedString => 0x10000000 + 1
  | unicodeEscape => 0x10000000 + 2
  | hexEscape => 0x10000000 + 3
  | returnInContinuation => 0x10000000 + 4
  | unterminatedNumber => 0x8000000 + 1
  | numberValue => 0x8000000 + 2
  | identifierAfterNumber => 0x8000000 + 3
  | unterminatedRegex => 0x4000000 + 1

def NumberForm.index : NumberForm → Nat
  | float => 1
  | integer => 2
  | hex => 3
  | nan => 4
  | infinity => 5

/-- The bit of a class in a packed code. -/
def Token.Class.bit : Token.Class → Nat
  | assign => 0x100
  | binary => 0x200
  | compare => 0x400
  | logical => 0x800
  | unary => 0x1000
  | punctuation => 0x2000
  | bracket => 0x4000
  | identifier => 0x8000
  | number => 0x10000
  | string => 0x20000
  | comment => 0x40000
  | regex => 0x80000

namespace Token.Kind

/-- The place of a kind within its class. -/
def index : Kind → Nat
  | starComment => 1
  | lineComment => 2
  | number form => form.index
  | comma => 1
  | questionMark => 2
  | colon => 3
  | semicolon => 4
  | dot => 5
  | openPar => 1
  | closePar => 2
  | openSquare => 3
  | closeSquare => 4
  | openCurly => 5
  | closeCurly => 6
  | assign => 1
  | compound .plus => 2
  | compound .minus => 3
  | compound .times => 4
  | compound .divide => 5
  | compound .modulo => 6
  | compound .shiftLeft => 7
  | compound .shiftRight => 8
  | compound .shiftRightUnsigned => 9
  | compound .bitAnd => 10
  | compound .bitOr => 11
  | compound .bitXor => 12
  | binary (.connective .or) => 1
  | binary (.connective .and) => 2
  | binary (.arith .bitOr) => 1
  | binary (.arith .bitXor) => 2
  | binary (.arith .bitAnd) => 3
  | binary (.arith .shiftLeft) => 4
  | binary (.arith .shiftRight) => 5
  | binary (.arith .shiftRightUnsigned) => 6
  | binary (.arith .plus) => 7
  | binary (.arith .minus) => 8
  | binary (.arith .times) => 9
  | binary (.arith .divide) => 10
  | binary (.arith .modulo) => 11
  | binary (.comparison .equal) => 1
  | binary (.comparison .different) => 2
  | binary (.comparison .strictEqual) => 3
  | binary (.comparison .strictDifferent) => 4
  | binary (.comparison .less) => 5
  | binary (.comparison .greater) => 6
  | binary (.comparison .lessOrEqual) => 7
  | binary (.comparison .greaterOrEqual) => 8
  | binary (.comparison .instanceOf) => 9
  | not => 1
  | bitNot => 2
  | increment => 3
  | decrement => 4
  | typeOf => 5
  | void => 6
  | delete => 7
  | new => 8
  | _ => 0

/-- The packed code of a kind. -/
def bits (k : Kind) : Int :=
  match k with
  | endOfInput => -0x80000000 + 0x40000000
  | error cause => -0x80000000 + 0x20000000 + cause.bits
  | _ => ((k.class?.map Class.bit).getD 0 + k.level * 0x100000 + k.index : Nat)

end Token.Kind

end Steppable
