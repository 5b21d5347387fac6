/-!
# Operators

The operators of the language and their spellings. Binary operators fall into three families:
arithmetic ones, each of which also has a compound assignment, comparisons, and the two logical
connectives, which do not always evaluate their right operand.
-/

namespace Steppable

/-- Operators on numbers; `plus` also joins texts. -/
inductive Arith where
  | plus | minus | times | divide | modulo
  | bitAnd | bitOr | bitXor
  | shiftLeft | shiftRight | shiftRightUnsigned
  deriving Repr, DecidableEq, Inhabited

/-- Operators whose result is a truth value. -/
inductive Comparison where
  | equal | different | strictEqual | strictDifferent
  | less | greater | lessOrEqual | greaterOrEqual
  | instanceOf
  deriving Repr, DecidableEq, Inhabited

/-- The two connectives. -/
inductive Connective where
  | and | or
  deriving Repr, DecidableEq, Inhabited

/-- An operator with two operands. -/
inductive BinaryOp where
  | arith (op : Arith)
  | comparison (op : Comparison)
  | connective (op : Connective)
  deriving Repr, DecidableEq, Inhabited

/-- An operator in front of its one operand. -/
inductive UnaryOp where
  | minus | plus | not | bitNot | typeOf | void | delete | new
  deriving Repr, DecidableEq, Inhabited

/-- The statements that leave the normal order of evaluation. -/
inductive Jump where
  | break | continue | return
  deriving Repr, DecidableEq, Inhabited

def Arith.symbol : Arith → String
  | plus => "+"
  | minus => "-"
  | times => "*"
  | divide => "/"
  | modulo => "%"
  | bitAnd => "&"
  | bitOr => "|"
  | bitXor => "^"
  | shiftLeft => "<<"
  | shiftRight => ">>"
  | shiftRightUnsigned => ">>>"

def Comparison.symbol : Comparison → String
  | equal => "=="
  | different => "!="
  | strictEqual => "==="
  | strictDifferent => "!=="
  | less => "<"
  | greater => ">"
  | lessOrEqual => "<="
  | greaterOrEqual => ">="
  | instanceOf => "instanceof"

def Connective.symbol : Connective → String
  | and => "&&"
  | or => "||"

namespace BinaryOp

def symbol : BinaryOp → String
  | arith op => op.symbol
  | comparison op => op.symbol
  | connective op => op.symbol

def isLogical : BinaryOp → Bool
  | connective _ => true
  | _ => false

end BinaryOp

namespace UnaryOp

/-- The spelling of the operator. -/
def symbol : UnaryOp → String
  | minus => "-"
  | plus => "+"
  | not => "!"
  | bitNot => "~"
  | typeOf => "typeof"
  | void => "void"
  | delete => "delete"
  | new => "new"

/-- What is written before the operand: a word is set off by a space. -/
def lead : UnaryOp → String
  | typeOf => "typeof "
  | void => "void "
  | delete => "delete "
  | new => "new "
  | op => op.symbol

end UnaryOp

def Jump.keyword : Jump → String
  | .break => "break"
  | .continue => "continue"
  | .return => "return"

end Steppable
