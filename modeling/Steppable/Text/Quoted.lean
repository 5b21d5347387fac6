/-!
# Quoted text

The source literal of a text: double quotes around its characters, a backslash before the quote and
the backslash, a letter for the usual control characters and four hexadecimal digits for the others.
-/

namespace Steppable.Text

/-- The lower case hexadecimal digit of `n`, for `n < 16`. -/
def hexDigit (n : Nat) : Char :=
  if n < 10 then Char.ofNat ('0'.toNat + n) else Char.ofNat ('a'.toNat + (n - 10))

/-- Four hexadecimal digits of `n`, for `n < 65536`. -/
def hexDigits4 (n : Nat) : List Char :=
  [hexDigit (n / 4096 % 16), hexDigit (n / 256 % 16), hexDigit (n / 16 % 16), hexDigit (n % 16)]

/-- How one character is written between the quotes. -/
def escape (c : Char) : List Char :=
  if c == '\x22' then ['\\', '\x22']
  else if c == '\\' then ['\\', '\\']
  else if c == '\n' then ['\\', 'n']
  else if c == '\r' then ['\\', 'r']
  else if c == '\t' then ['\\', 't']
  else if c == '\x08' then ['\\', 'b']
  else if c == '\x0b' then ['\\', 'v']
  else if c == '\x0c' then ['\\', 'f']
  else if c.toNat < 0x20 then '\\' :: 'u' :: hexDigits4 c.toNat
  else [c]

/-- The characters of the literal that reads back as `cs`. -/
def quoteChars (cs : List Char) : List Char :=
  '\x22' :: (cs.flatMap escape ++ ['\x22'])

/-- The double quoted source literal of `s`. -/
def quote (s : String) : String :=
  String.ofList (quoteChars s.toList)

end Steppable.Text
