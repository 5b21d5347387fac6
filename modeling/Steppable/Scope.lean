import Std.Data.TreeMap
import Steppable.Tree.Node

/-!
# Names in scope

While a source is read, nested scopes bind names to their declarations. Each name keeps the stack of
its visible declarations, the latest first, so that closing a scope brings back what it hid without
a search through the outer scopes.
-/

namespace Steppable

/-- How declarations may repeat a name. -/
structure Scope.Options where
  /-- A scope is open from the start and is never closed. -/
  global : Bool := false
  /-- An inner declaration may hide an outer one of the same name. -/
  masking : Bool := true
  /-- A name may be declared twice in one scope; the second declaration hides the first. -/
  redefinition : Bool := false
  deriving Repr, DecidableEq, Inhabited

/-- A visible declaration and the depth of the scope that holds it. -/
structure Scope.Entry where
  decl : Declaration
  depth : Nat
  deriving Repr, DecidableEq

structure Scope where
  options : Scope.Options
  /-- The visible declarations of each name, the latest first. -/
  names : Std.TreeMap String (List Scope.Entry)
  /-- The open scopes, the innermost first, each with its declarations in order. -/
  levels : List (List Declaration)

/-- Why a name cannot be declared. -/
inductive Scope.Conflict where
  | noScope
  /-- An outer declaration at this place would be hidden. -/
  | masks (existing : Location)
  /-- The scope declares the name at this place already. -/
  | repeats (existing : Location)
  deriving Repr, DecidableEq

/-- Why a scope cannot be closed. -/
inductive Scope.CloseError where
  | noOpenScope
  | globalScope
  deriving Repr, DecidableEq

namespace Scope

def Conflict.message : Conflict → String
  | noScope => "Invalid declaration (a scope must be opened first)."
  | masks existing =>
    "Masking is not allowed: declaration conflicts with declaration at " ++ existing.text ++ "."
  | repeats existing => "Declaration conflicts with declaration at " ++ existing.text ++ "."

def CloseError.message : CloseError → String
  | noOpenScope => "no scope is open"
  | globalScope => "the global scope can not be closed"

def new (options : Options) : Scope :=
  { options, names := {}, levels := if options.global then [[]] else [] }

/-- The number of open scopes. -/
def depth (s : Scope) : Nat :=
  s.levels.length

/-- The visible declarations of a name, the latest first. -/
def chain (s : Scope) (name : String) : List Entry :=
  s.names.getD name []

/-- The declaration that a name refers to. -/
def find? (s : Scope) (name : String) : Option Declaration :=
  (s.chain name).head?.map Entry.decl

/-- Opens a scope inside the innermost one. -/
def opened (s : Scope) : Scope :=
  { s with levels := [] :: s.levels }

@[simp]
theorem depth_opened (s : Scope) : s.opened.depth = s.depth + 1 := rfl

/-- An empty scope hides nothing. -/
@[simp]
theorem find?_opened (s : Scope) (name : String) : s.opened.find? name = s.find? name := rfl

/-- Why `name` cannot be declared in the innermost scope, if it cannot. -/
def conflict? (s : Scope) (name : String) : Option Conflict :=
  if s.depth = 0 then some .noScope
  else
    match s.chain name with
    | [] => none
    | e :: _ =>
      if !s.options.masking then some (.masks e.decl.place)
      else if e.depth = s.depth && !s.options.redefinition then some (.repeats e.decl.place)
      else none

/-- Declares `d` in the innermost scope. -/
def declare (s : Scope) (d : Declaration) : Except Conflict Scope :=
  match s.conflict? d.name with
  | some c => .error c
  | none =>
    .ok { s with
      names := s.names.insert d.name (⟨d, s.depth⟩ :: s.chain d.name)
      levels := match s.levels with
        | [] => []
        | ds :: outer => (ds ++ [d]) :: outer }

/-- A name that has just been declared refers to that declaration. -/
theorem find?_of_declare {s t : Scope} {d : Declaration} (h : s.declare d = .ok t) :
    t.find? d.name = some d := by
  unfold declare at h
  split at h
  · exact absurd h (by simp)
  · obtain rfl := Except.ok.inj h
    simp [find?, chain]

/-- Forgets the latest declaration of a name. -/
def forget (names : Std.TreeMap String (List Entry)) (name : String) :
    Std.TreeMap String (List Entry) :=
  match names.getD name [] with
  | [] => names
  | [_] => names.erase name
  | _ :: rest => names.insert name rest

/-- Closes the innermost scope and returns its declarations in order. -/
def close (s : Scope) : Except CloseError (List Declaration × Scope) :=
  match s.levels with
  | [] => .error .noOpenScope
  | [ds] =>
    if s.options.global then .error .globalScope
    else .ok (ds, { s with
      names := ds.reverse.foldl (fun names d => forget names d.name) s.names, levels := [] })
  | ds :: outer =>
    .ok (ds, { s with
      names := ds.reverse.foldl (fun names d => forget names d.name) s.names, levels := outer })

/-- Closes scopes until `depth` are left, at most `fuel` of them. -/
def closeDown (depth : Nat) : Nat → Scope → Scope
  | 0, s => s
  | fuel + 1, s =>
    if s.depth ≤ depth then s
    else
      match s.close with
      | .ok (_, s) => closeDown depth fuel s
      | .error _ => s

/-- Closes every scope above `depth` that can be closed. -/
def closeTo (s : Scope) (depth : Nat) : Scope :=
  closeDown depth s.depth s

/-- The declarations of the global scope, none if there is no such scope. -/
def globals (s : Scope) : List Declaration :=
  if s.options.global then s.levels.getLastD [] else []

end Scope

end Steppable
