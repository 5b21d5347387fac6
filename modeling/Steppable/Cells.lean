import Std.Data.TreeMap
import Steppable.Tree.Node

/-!
# Cells of variables

At run time every declaration has a stack of cells, one for each live activation that declares it. A
cell whose activation ends is used again for the next variable, unless a function has captured it:
then it lives on, because the function may be called at any later time.
-/

namespace Steppable

/-- A storage cell. -/
structure Cell where
  value : Value := .undefined
  /-- A function refers to the cell. -/
  captured : Bool := false
  deriving Inhabited

structure Cells where
  cells : Array Cell := #[]
  /-- The cells to use again, the next one first. -/
  free : List Nat := []
  /-- The cells of each declaration by its identity, the current one first. -/
  activations : Std.TreeMap Nat (List Nat) := {}

namespace Cells

/-- The cells of the live activations of `d`, the current one first. -/
def stack (s : Cells) (d : Declaration) : List Nat :=
  s.activations.getD d.id []

/-- The current cell of `d`. -/
def find? (s : Cells) (d : Declaration) : Option Nat :=
  (s.stack d).head?

/-- Makes an existing cell the current one of `d`. -/
def push (s : Cells) (d : Declaration) (cell : Nat) : Cells :=
  { s with activations := s.activations.insert d.id (cell :: s.stack d) }

@[simp]
theorem stack_push_self (s : Cells) (d : Declaration) (cell : Nat) :
    (s.push d cell).stack d = cell :: s.stack d := by
  simp [stack, push]

/-- Only the stack of the declaration itself grows. -/
theorem stack_push_of_ne (s : Cells) {d e : Declaration} (h : d.id ≠ e.id) (cell : Nat) :
    (s.push d cell).stack e = s.stack e := by
  simp [stack, push, Std.TreeMap.getD_insert, h]

@[simp]
theorem find?_push_self (s : Cells) (d : Declaration) (cell : Nat) :
    (s.push d cell).find? d = some cell := by
  simp [find?]

/-- Makes an undefined cell, a freed one or a new one, the current one of `d`. -/
def register (s : Cells) (d : Declaration) : Nat × Cells :=
  match s.free with
  | cell :: free =>
    (cell, { s with free, cells := s.cells.setIfInBounds cell {} }.push d cell)
  | [] => (s.cells.size, { s with cells := s.cells.push {} }.push d s.cells.size)

def registerAll (s : Cells) (ds : List Declaration) : Cells :=
  ds.foldl (fun s d => (s.register d).2) s

def isCaptured (s : Cells) (cell : Nat) : Bool :=
  (s.cells.getD cell {}).captured

/-- Ends the current activation of `d`: its cell is freed unless it is captured. -/
def unregister (s : Cells) (d : Declaration) : Option Nat × Cells :=
  match s.stack d with
  | [] => (none, s)
  | cell :: rest =>
    let s := { s with
      activations :=
        if rest.isEmpty then s.activations.erase d.id else s.activations.insert d.id rest }
    if s.isCaptured cell then (some cell, s)
    else
      (some cell, { s with cells := s.cells.setIfInBounds cell {}, free := cell :: s.free })

/-- Ends the activations of several declarations, the last one first. -/
def unregisterAll (s : Cells) (ds : List Declaration) : Cells :=
  ds.reverse.foldl (fun s d => (s.unregister d).2) s

/-- Marks a cell as used by a function. -/
def capture (s : Cells) (cell : Nat) : Cells :=
  { s with cells := s.cells.modify cell fun c => { c with captured := true } }

def get (s : Cells) (cell : Nat) : Value :=
  (s.cells.getD cell {}).value

/-- The value a reference points to; another value is its own. -/
def deref (s : Cells) : Value → Value
  | .reference cell => s.get cell
  | v => v

/-- Writes a value into a cell; of a reference the value it points to. -/
def set (s : Cells) (cell : Nat) (v : Value) : Cells :=
  { s with cells := s.cells.modify cell fun c => { c with value := s.deref v } }

end Cells

end Steppable
