/-!
# Places in a source text

A span is a half open range of character offsets. A location adds the line and the column of its
start, both counted from one.
-/

namespace Steppable

/-- The characters from `start` up to, not including, `stop`. -/
structure Span where
  start : Nat
  stop : Nat
  deriving Repr, DecidableEq, Inhabited

/-- The smallest span that covers both. -/
def Span.cover (a b : Span) : Span :=
  ⟨min a.start b.start, max a.stop b.stop⟩

/-- Where a token or a node of a tree stands in the source. -/
structure Location where
  span : Span := ⟨0, 0⟩
  line : Nat := 0
  column : Nat := 0
  deriving Repr, DecidableEq, Inhabited

namespace Location

/-- From the start of `a` to wherever the two end. -/
def extend (a b : Location) : Location :=
  { a with span := a.span.cover b.span }

/-- The start of a location in words. -/
def text (a : Location) : String :=
  "line " ++ toString a.line ++ ", column " ++ toString a.column

end Location

/-- A point of the source: the number of characters before it, and its line and column. -/
structure Position where
  offset : Nat := 0
  line : Nat := 1
  column : Nat := 1
  deriving Repr, DecidableEq, Inhabited

namespace Position

/-- The point after a character that does not end its line. -/
def nextColumn (p : Position) : Position :=
  ⟨p.offset + 1, p.line, p.column + 1⟩

/-- The point after a character that ends its line. -/
def nextLine (p : Position) : Position :=
  ⟨p.offset + 1, p.line + 1, 1⟩

/-- The point after one more character. -/
def next (p : Position) (c : Char) : Position :=
  if c == '\n' then p.nextLine else p.nextColumn

/-- The point after the characters `cs`. -/
def after (p : Position) (cs : List Char) : Position :=
  cs.foldl next p

theorem after_append (p : Position) (cs ds : List Char) :
    p.after (cs ++ ds) = (p.after cs).after ds :=
  List.foldl_append

/-- Every character takes one offset. -/
theorem offset_after (p : Position) (cs : List Char) :
    (p.after cs).offset = p.offset + cs.length := by
  induction cs generalizing p with
  | nil => rfl
  | cons c cs ih =>
    have step : (p.next c).offset = p.offset + 1 := by
      unfold next
      split <;> rfl
    show ((p.next c).after cs).offset = p.offset + (cs.length + 1)
    rw [ih, step]
    omega

/-- The location that begins at `p` and ends at `q`. -/
def upTo (p q : Position) : Location :=
  ⟨⟨p.offset, q.offset⟩, p.line, p.column⟩

end Position

end Steppable
