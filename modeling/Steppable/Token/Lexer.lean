import Steppable.Numeric.Numeral
import Steppable.Source.Location
import Steppable.Token.Kind

/-!
# From text to tokens

A text is read from left to right. Blanks are skipped, then one token is scanned: the longest
operator that the text begins with, a number, a name, a string, a regular expression or a comment. A
slash begins a division when the token before it, comments aside, can end an operand; otherwise it
begins a regular expression. Reading ends with the first error or with the end of the input, and
that token closes the list.

Every scanner takes the characters it looks at and returns those it leaves, so the place of a token
is found from what it took.
-/

namespace Steppable

/-- A token with what was read for it and its place. -/
structure Token where
  kind : Token.Kind
  /-- The text of a name, string, regular expression or comment; for an error what had been read. -/
  text : String := ""
  /-- The value of a number. -/
  number : Float := 0
  place : Location
  deriving Inhabited

namespace Token

/-- What a scanner found: the token's kind and contents, and the characters after it. -/
structure Scan where
  kind : Kind
  text : List Char := []
  number : Float := 0
  rest : List Char

/-! ## Characters -/

def isNameStart (c : Char) : Bool :=
  c == '_' || c == '$' || c.isAlpha

def isNamePart (c : Char) : Bool :=
  isNameStart c || c.isDigit

/-- Whether `p` holds of the next character. -/
def nextIs (p : Char → Bool) : List Char → Bool
  | [] => false
  | c :: _ => p c

/-! ## Numbers -/

/-- The digits after `0x`, whose value is summed up in floats. -/
def scanHex (cs : List Char) : Scan :=
  let digits := cs.takeWhile fun c => (Numeric.hexValue? c).isSome
  let rest := cs.dropWhile fun c => (Numeric.hexValue? c).isSome
  if digits.isEmpty then { kind := .error .unterminatedNumber, rest }
  else if nextIs isNamePart rest then { kind := .error .identifierAfterNumber, rest }
  else
    let value := digits.foldl
      (fun x c => x * 16 + Float.ofNat ((Numeric.hexValue? c).getD 0)) 0
    { kind := .number .hex, number := value, rest }

/-- Reads the spelling `literal` of a number that ends before `rest`. -/
def finishNumber (form : NumberForm) (literal rest : List Char) : Scan :=
  if nextIs isNamePart rest then { kind := .error .identifierAfterNumber, rest }
  else
    match Numeric.readUnsigned literal with
    | some value => { kind := .number form, number := value, rest }
    | none => { kind := .error .numberValue, rest }

/-- The exponent of a number whose spelling so far is `literal`, or no exponent. -/
def scanExponent (form : NumberForm) (literal : List Char) : List Char → Scan
  | c :: cs =>
    if c == 'e' || c == 'E' then
      let (sign, digits) := match cs with
        | '+' :: ds => (['+'], ds)
        | '-' :: ds => (['-'], ds)
        | ds => ([], ds)
      if nextIs Char.isDigit digits then
        finishNumber .float (literal ++ c :: sign ++ digits.takeWhile Char.isDigit)
          (digits.dropWhile Char.isDigit)
      else { kind := .error .unterminatedNumber, rest := digits }
    else finishNumber form literal (c :: cs)
  | [] => finishNumber form literal []

/-- What follows the digits and the point of a number: a second point is an error. -/
def scanAfterPoint (form : NumberForm) (literal rest : List Char) : Scan :=
  if nextIs (· == '.') rest then { kind := .error .identifierAfterNumber, rest }
  else scanExponent form literal rest

/-- A decimal that begins with the digit or the point `first`. -/
def scanDecimal (first : Char) (cs : List Char) : Scan :=
  let digits := first :: cs.takeWhile Char.isDigit
  match first == '.', cs.dropWhile Char.isDigit with
  | false, '.' :: rest =>
    scanAfterPoint .float (digits ++ '.' :: rest.takeWhile Char.isDigit)
      (rest.dropWhile Char.isDigit)
  | point, rest => scanAfterPoint (if point then .float else .integer) digits rest

/-- A number that begins with `first`. -/
def scanNumber (first : Char) (cs : List Char) : Scan :=
  match first == '0', cs with
  | true, 'x' :: rest | true, 'X' :: rest => scanHex rest
  | _, _ => scanDecimal first cs

/-! ## Names -/

/-- The kind of a name: some words are operators or numbers. -/
def kindOfName (name : List Char) : Kind :=
  if name == "instanceof".toList then .binary (.comparison .instanceOf)
  else if name == "typeof".toList then .typeOf
  else if name == "void".toList then .void
  else if name == "delete".toList then .delete
  else if name == "new".toList then .new
  else if name == "NaN".toList then .number .nan
  else if name == "Infinity".toList then .number .infinity
  else .identifier

def scanName (cs : List Char) : Scan :=
  let name := cs.takeWhile isNamePart
  let kind := kindOfName name
  let number := match kind with
    | .number .nan => Numeric.nan
    | .number .infinity => Numeric.infinity
    | _ => 0
  { kind, text := name, number, rest := cs.dropWhile isNamePart }

/-! ## Strings -/

/-- What the next character of a string is taken for. -/
inductive StringState where
  /-- A character of the string, or its end. -/
  | plain
  /-- The character after a backslash. -/
  | escaped
  /-- One of the `left` hexadecimal digits that are still expected, after those that make `value`.
  -/
  | hex (left value : Nat) (error : LexicalError)
  /-- The line feed that belongs to a carriage return after a backslash. -/
  | afterReturn

/-- The escapes of one letter that stand for another character. -/
def unescape (c : Char) : Char :=
  match c with
  | 'n' => '\n'
  | 'r' => '\r'
  | 't' => '\t'
  | 'b' => '\x08'
  | 'v' => '\x0b'
  | 'f' => '\x0c'
  | '0' => '\x00'
  | c => c

/-- The rest of a string closed by `quote`. The characters read so far are in `read`, last one
first. -/
def scanString (quote : Char) : StringState → List Char → List Char → Scan
  | .plain, read, [] | .escaped, read, [] =>
    { kind := .error .unterminatedString, text := read.reverse, rest := [] }
  | .hex _ _ cause, read, [] => { kind := .error cause, text := read.reverse, rest := [] }
  | .afterReturn, read, [] =>
    { kind := .error .returnInContinuation, text := read.reverse, rest := [] }
  | .plain, read, c :: cs =>
    if c == quote then { kind := .string, text := read.reverse, rest := cs }
    else if c == '\n' then
      { kind := .error .unterminatedString, text := read.reverse, rest := cs }
    else if c == '\\' then scanString quote .escaped read cs
    else scanString quote .plain (c :: read) cs
  | .escaped, read, c :: cs =>
    if c == 'u' then scanString quote (.hex 4 0 .unicodeEscape) read cs
    else if c == 'x' then scanString quote (.hex 2 0 .hexEscape) read cs
    else if c == '\n' then scanString quote .plain read cs
    else if c == '\r' then scanString quote .afterReturn read cs
    else scanString quote .plain (unescape c :: read) cs
  | .hex left value cause, read, c :: cs =>
    match Numeric.hexValue? c with
    | none => { kind := .error cause, text := read.reverse, rest := c :: cs }
    | some d =>
      let value := value * 16 + d
      if left ≤ 1 then
        -- the digits of a surrogate name no character
        if value.isValidChar then scanString quote .plain (Char.ofNat value :: read) cs
        else { kind := .error cause, text := read.reverse, rest := cs }
      else scanString quote (.hex (left - 1) value cause) read cs
  | .afterReturn, read, c :: cs =>
    if c == '\n' then scanString quote .plain read cs
    else { kind := .error .returnInContinuation, text := read.reverse, rest := c :: cs }

/-! ## Comments and regular expressions -/

def scanLineComment (cs : List Char) : Scan :=
  { kind := .lineComment, text := cs.takeWhile (· != '\n'), rest := cs.dropWhile (· != '\n') }

/-- A comment closed by a star and a slash, or by the end of the text. -/
def scanStarComment (read : List Char) : List Char → Scan
  | '*' :: '/' :: cs => { kind := .starComment, text := read.reverse, rest := cs }
  | c :: cs => scanStarComment (c :: read) cs
  | [] => { kind := .starComment, text := read.reverse, rest := [] }

/-- The flags after a regular expression. -/
def isRegexFlag (c : Char) : Bool :=
  c == 'g' || c == 'i' || c == 'm'

/-- The rest of a regular expression, on one line. After a backslash (`escaped`) a slash does not
end it. -/
def scanRegex : Bool → List Char → List Char → Scan
  | _, read, [] => { kind := .error .unterminatedRegex, text := read.reverse, rest := [] }
  | escaped, read, c :: cs =>
    if c == '\n' then
      { kind := .error .unterminatedRegex, text := read.reverse, rest := c :: cs }
    else if escaped then scanRegex false (c :: read) cs
    else if c == '/' then
      { kind := .regex
        text := read.reverse ++ c :: cs.takeWhile isRegexFlag
        rest := cs.dropWhile isRegexFlag }
    else scanRegex (c == '\\') (c :: read) cs

/-- Whether a slash after a token of kind `k` is a division. -/
def endsOperand : Kind → Bool
  | .closePar | .closeSquare | .increment | .decrement => true
  | k => k.isIdentifier || k.isString || k.isNumber

/-! ## One token -/

/-- An arithmetic operator, or its compound assignment when an equals sign follows. -/
def arithOrCompound (op : Arith) : List Char → Scan
  | '=' :: cs => { kind := .compound op, rest := cs }
  | cs => { kind := .binary (.arith op), rest := cs }

/-- What begins with a slash. -/
def scanSlash (previous : Kind) : List Char → Scan
  | '/' :: cs => scanLineComment cs
  | '*' :: cs => scanStarComment [] cs
  | cs => if endsOperand previous then arithOrCompound .divide cs else scanRegex false ['/'] cs

/-- What begins with `!`, `=`, `<` or `>`. -/
def scanComparison : Char → List Char → Scan
  | '!', '=' :: '=' :: cs => { kind := .binary (.comparison .strictDifferent), rest := cs }
  | '!', '=' :: cs => { kind := .binary (.comparison .different), rest := cs }
  | '!', cs => { kind := .not, rest := cs }
  | '=', '=' :: '=' :: cs => { kind := .binary (.comparison .strictEqual), rest := cs }
  | '=', '=' :: cs => { kind := .binary (.comparison .equal), rest := cs }
  | '=', cs => { kind := .assign, rest := cs }
  | '<', '<' :: cs => arithOrCompound .shiftLeft cs
  | '<', '=' :: cs => { kind := .binary (.comparison .lessOrEqual), rest := cs }
  | '<', cs => { kind := .binary (.comparison .less), rest := cs }
  | _, '>' :: '>' :: cs => arithOrCompound .shiftRightUnsigned cs
  | _, '>' :: cs => arithOrCompound .shiftRight cs
  | _, '=' :: cs => { kind := .binary (.comparison .greaterOrEqual), rest := cs }
  | _, cs => { kind := .binary (.comparison .greater), rest := cs }

/-- What begins with `&` or `|`, `+` or `-`: twice the character is a token of its own. -/
def scanDoubled (c : Char) (twice : Kind) (op : Arith) : List Char → Scan
  | d :: cs => if d == c then { kind := twice, rest := cs } else arithOrCompound op (d :: cs)
  | [] => arithOrCompound op []

/-- The token at the start of `c :: cs`, which is not blank, after a token of kind `previous`. -/
def scan (previous : Kind) (c : Char) (cs : List Char) : Scan :=
  match c with
  | '(' => { kind := .openPar, rest := cs }
  | ')' => { kind := .closePar, rest := cs }
  | '[' => { kind := .openSquare, rest := cs }
  | ']' => { kind := .closeSquare, rest := cs }
  | '\x7b' => { kind := .openCurly, rest := cs }
  | '\x7d' => { kind := .closeCurly, rest := cs }
  | ',' => { kind := .comma, rest := cs }
  | ';' => { kind := .semicolon, rest := cs }
  | ':' => { kind := .colon, rest := cs }
  | '?' => { kind := .questionMark, rest := cs }
  | '~' => { kind := .bitNot, rest := cs }
  | '.' => if nextIs Char.isDigit cs then scanNumber c cs else { kind := .dot, rest := cs }
  | '!' | '=' | '<' | '>' => scanComparison c cs
  | '+' => scanDoubled c .increment .plus cs
  | '-' => scanDoubled c .decrement .minus cs
  | '*' => arithOrCompound .times cs
  | '%' => arithOrCompound .modulo cs
  | '^' => arithOrCompound .bitXor cs
  | '&' => scanDoubled c (.binary (.connective .and)) .bitAnd cs
  | '|' => scanDoubled c (.binary (.connective .or)) .bitOr cs
  | '/' => scanSlash previous cs
  | '\x22' | '\x27' => scanString c .plain [] cs
  | _ =>
    if c.isDigit then scanNumber c cs
    else if isNameStart c then scanName (c :: cs)
    else { kind := .error .invalidChar, rest := cs }

/-! ## The whole text -/

/-- The point after what the scan `s` took from the characters `cs` at `start`. -/
def Scan.stop (s : Scan) (start : Position) (cs : List Char) : Position :=
  start.after (cs.take (cs.length - s.rest.length))

/-- The token that the scan `s` found between two points. -/
def Scan.token (s : Scan) (start stop : Position) : Token :=
  { kind := s.kind, text := String.ofList s.text, number := s.number, place := start.upTo stop }

/-- The tokens of `cs`, which begins at `here`, after a token of kind `previous`. Comments are
tokens when `comments` is set and are passed over otherwise. Every token takes a character, so as
much fuel as there are characters is enough to reach the end. -/
def tokensFrom (comments : Bool) : Nat → Kind → Position → List Char → List Token
  | 0, _, here, _ => [{ kind := .endOfInput, place := here.upTo here }]
  | fuel + 1, previous, here, cs =>
    let start := here.after (cs.takeWhile Text.isBlank)
    match cs.dropWhile Text.isBlank with
    | [] => [{ kind := .endOfInput, place := start.upTo start }]
    | c :: cs =>
      let s := scan previous c cs
      let stop := s.stop start (c :: cs)
      let token := s.token start stop
      if s.kind.isError then [token]
      else if s.kind.isComment then
        let later := tokensFrom comments fuel previous stop s.rest
        if comments then token :: later else later
      else token :: tokensFrom comments fuel s.kind stop s.rest

/-- The tokens of a text. -/
def lex (source : String) (comments : Bool := false) : List Token :=
  let cs := source.toList
  tokensFrom comments (cs.length + 1) .none {} cs

end Token

end Steppable
