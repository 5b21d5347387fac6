import Steppable.Token.Lexer

/-!
# Reading tokens one by one

A cursor stands on a token of a text. It moves forward until it reaches an error or the end of the
input, where it stays. Apart from the token it remembers the place of the token before it and the
last number that it passed.
-/

namespace Steppable

structure Cursor where
  current : Token
  /-- The tokens after the current one. -/
  ahead : List Token
  /-- The place of the token before the current one, or the start of the text. -/
  previous : Location
  /-- The value of the last number read, kept when another token follows it. -/
  number : Float
  /-- Whether comments count as tokens. -/
  comments : Bool
  deriving Inhabited

namespace Cursor

/-- The start of every text, as the place before its first token. -/
def startOfText : Location := ⟨⟨0, 0⟩, 1, 1⟩

/-- The number remembered once `t` is read after `number`. -/
def remember (number : Float) (t : Token) : Float :=
  if t.kind.isNumber then t.number else number

/-- A cursor on the first token of `source`. -/
def start (source : String) (comments : Bool) (number : Float) : Cursor :=
  match Token.lex source comments with
  | [] =>
    { current := { kind := .endOfInput, place := startOfText }, ahead := []
      previous := startOfText, number, comments }
  | t :: ts =>
    { current := t, ahead := ts, previous := startOfText, number := remember number t, comments }

def ofSource (source : String) (comments : Bool := false) : Cursor :=
  start source comments 0

/-- Whether the cursor is on a token after which nothing more is read. -/
def atLast (c : Cursor) : Bool :=
  c.current.kind.isLast

/-- The cursor on the next token; on an error or the end of the input it stays. -/
def forward (c : Cursor) : Cursor :=
  if c.atLast then c
  else
    match c.ahead with
    | [] => c
    | t :: ts =>
      { c with
        current := t, ahead := ts, previous := c.current.place, number := remember c.number t }

/-- A cursor on the first token of another text, with the memory of the last number. -/
def restart (c : Cursor) (source : String) : Cursor :=
  start source c.comments c.number

/-- Passes a token of kind `k` if it is the current one. -/
def accept (c : Cursor) (k : Token.Kind) : Bool × Cursor :=
  if c.current.kind = k then (true, c.forward) else (false, c)

/-- Whether the current token is the given name. -/
def isNamed (c : Cursor) (name : String) : Bool :=
  c.current.kind.isIdentifier && c.current.text == name

/-- Passes the given name if it is the current token. -/
def acceptName (c : Cursor) (name : String) : Bool × Cursor :=
  if c.isNamed name then (true, c.forward) else (false, c)

/-- Passes a number and returns its value. -/
def takeNumber (c : Cursor) : Option Float × Cursor :=
  if c.current.kind.isNumber then (some c.number, c.forward) else (none, c)

/-- Passes a token of the given class and returns its text. -/
def takeText (c : Cursor) (k : Token.Class) : Option String × Cursor :=
  if c.current.kind.class? == some k then (some c.current.text, c.forward) else (none, c)

end Cursor

end Steppable
