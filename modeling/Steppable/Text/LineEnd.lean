/-!
# Ends of lines

The characters that end a line of a text that is shown to a person. Seven characters do so; a
carriage return and a line feed right behind it end one line together.
-/

namespace Steppable.Text

/-- The seven characters that end a line. -/
def isLineEnd (c : Char) : Bool :=
  ('\n' ≤ c && c ≤ '\r') || c == '\u0085' || c == '\u2028' || c == '\u2029'

/-- Whether a new line begins at `b`, which stands right behind `a`. -/
def breaksBetween (a b : Char) : Bool :=
  isLineEnd a && !(a == '\r' && b == '\n')

end Steppable.Text
