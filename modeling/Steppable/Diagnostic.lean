import Steppable.Text.LineEnd
import Steppable.Tree.Printer

/-!
# Diagnostics

What is reported about a source that cannot be read, or about an evaluation that ended with an
error: a title, the place in the source and, for an error that follows from another one, a note.
-/

namespace Steppable

inductive Diagnostic.Kind where
  | syntactic
  | runtime
  deriving Repr, DecidableEq

structure Diagnostic where
  kind : Diagnostic.Kind
  span : Span
  message : String
  help : Option String := none
  deriving Repr, DecidableEq

namespace Diagnostic

/-- One diagnostic for every place where the source could not be read. -/
def ofTree (n : Node) : List Diagnostic :=
  n.invalids.map fun e =>
    { kind := .syntactic
      span := e.place.span
      message := match e with
        | .invalid _ message => message
        | e => e.text }

/-- The diagnostic of a run-time error. The note names the first error of its chain. -/
def ofFault (f : Fault) : Diagnostic :=
  { kind := .runtime
    span := f.culprit.place.span
    message := f.message
    help := f.previous.map fun _ => "caused by: " ++ f.first.text }

def Kind.title : Kind → String
  | syntactic => "Syntax Error"
  | runtime => "Runtime Error"

/-- The part of the source that is marked. An empty span still marks one character, and the end of
the marked part is held within the size of the source in bytes. -/
def marked (d : Diagnostic) (source : String) : Span :=
  let stop := min (max d.span.stop (d.span.start + 1)) (max source.utf8ByteSize 1)
  ⟨min d.span.start (stop - 1), stop⟩

/-- The point `n` characters behind `p`, where the text goes on with `cs`. The end of a line belongs
to the line, and what lies behind the last character belongs to the line of that character. -/
def advance : Nat → Position → List Char → Position
  | n + 1, p, a :: b :: cs =>
    advance n (if Text.breaksBetween a b then p.nextLine else p.nextColumn) (b :: cs)
  | n, p, _ => ⟨p.offset + n, p.line, p.column + n⟩

/-- The line and the column of an offset. -/
def positionIn (cs : List Char) (offset : Nat) : Position :=
  advance offset {} cs

/-- Where the marked part begins. There is no such place in an empty source, nor when the marked
part goes on behind the end of the source. -/
def position? (d : Diagnostic) (source : String) : Option Position :=
  let cs := source.toList
  let m := d.marked source
  if cs.isEmpty || m.stop > cs.length + 1 then none else some (positionIn cs m.start)

/-- A place in a named source. -/
def placeLine (name : String) (p : Position) : String :=
  "[" ++ name ++ ":" ++ toString p.line ++ ":" ++ toString p.column ++ "]"

/-- The lines of the report: the title, the place if there is one, and the note. -/
def lines (d : Diagnostic) (source name : String) : List String :=
  ["Error: " ++ d.kind.title ++ ": " ++ d.message] ++
    ((d.position? source).map (placeLine name)).toList ++
    (d.help.map ("Note: help: " ++ ·)).toList

end Diagnostic

end Steppable
