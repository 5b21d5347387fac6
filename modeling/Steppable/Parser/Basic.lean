import Steppable.Scope
import Steppable.Token.Cursor

/-!
# The state of a parser

A parser reads tokens, resolves names and never gives up: where the source cannot be read it puts a
node that says so into the tree. Its state outlives a source, because the declarations of a global
scope are visible in the sources read later.

`Reading` is a computation on this state that may run out of fuel. `Attempt` may also end early with
the node to put into the tree instead of what was attempted.
-/

namespace Steppable

structure Parser where
  cursor : Cursor
  scope : Scope
  /-- The functions being read, the outermost first, each with its free variables so far. -/
  functions : List (List Declaration) := []
  /-- How many functions were open around each declaration, by its identity. -/
  nesting : Std.TreeMap Nat Nat := {}
  /-- The source has an error; reading stops as soon as possible. -/
  failed : Bool := false
  /-- The next unused identity. -/
  next : Nat

/-- A parser for sources under the given rules for declarations, whose nodes get identities from
`next` on. -/
def Parser.new (options : Scope.Options) (next : Nat := 1) : Parser :=
  { cursor := .ofSource "", scope := .new options, next }

/-- A step of reading; `none` when the fuel ran out. -/
abbrev Reading := StateT Parser Option

/-- A step of reading that can end early with an error node. -/
abbrev Attempt := ExceptT Node Reading

namespace Reading

/-- The fuel has run out. -/
def outOfFuel {α : Type} : Reading α :=
  failure

/-! ## Tokens -/

def kind : Reading Token.Kind :=
  return (← get).cursor.current.kind

/-- The place of the current token. -/
def here : Reading Location :=
  return (← get).cursor.current.place

def forward : Reading Unit :=
  modify fun p => { p with cursor := p.cursor.forward }

/-- Passes a token of kind `k` if it is the current one. -/
def accept (k : Token.Kind) : Reading Bool :=
  modifyGet fun p =>
    let (found, cursor) := p.cursor.accept k
    (found, { p with cursor })

/-- Passes the name `s` if it is the current token. -/
def acceptName (s : String) : Reading Bool :=
  modifyGet fun p =>
    let (found, cursor) := p.cursor.acceptName s
    (found, { p with cursor })

/-- Passes any name and returns it. -/
def takeName : Reading (Option String) :=
  modifyGet fun p =>
    let (found, cursor) := p.cursor.takeText .identifier
    (found, { p with cursor })

/-- From `start` to the end of the last token passed. -/
def spanFrom (start : Location) : Reading Location :=
  return start.extend (← get).cursor.previous

/-! ## Nodes -/

/-- An identity that nothing has yet. -/
def fresh : Reading Nat :=
  modifyGet fun p => (p.next, { p with next := p.next + 1 })

/-- A new node at the given place. -/
def node (place : Location) (build : Tag → Node) : Reading Node :=
  return build ⟨← fresh, place⟩

def hasFailed : Reading Bool :=
  return (← get).failed

/-- The node for an error, which is noted. -/
def errorAt (place : Location) (message : String) : Reading Node := do
  modify fun p => { p with failed := true }
  node place (.invalid · message)

/-- What is wrong with a token of kind `k` where `expected` had to stand. -/
def unexpectedMessage (expected : String) : Token.Kind → String
  | .error cause => cause.message
  | k => "Expected " ++ expected ++ " but found " ++ k.describe ++ "."

/-- The error that the current token is not what was expected. -/
def unexpected (expected : String) : Reading Node := do
  errorAt (← here) (unexpectedMessage expected (← kind))

/-- A block; one statement without locals stands for itself. -/
def blockOf (place : Location) (statements : List Node) (locals : List Declaration) :
    Reading Node :=
  match statements, locals with
  | [s], [] => pure s
  | _, _ => node place (.block · statements locals)

/-! ## Scopes and functions -/

def openScope : Reading Unit :=
  modify fun p => { p with scope := p.scope.opened }

/-- Closes the innermost scope and returns what it declared. -/
def closeScope : Reading (List Declaration) :=
  modifyGet fun p =>
    match p.scope.close with
    | .ok (locals, scope) => (locals, { p with scope })
    | .error _ => ([], p)

def openFunction : Reading Unit :=
  modify fun p => { p with functions := p.functions ++ [[]] }

/-- Ends the innermost function and returns its free variables. -/
def closeFunction : Reading (List Declaration) :=
  modifyGet fun p => (p.functions.getLastD [], { p with functions := p.functions.dropLast })

/-- Adds `d` to the free variables `free`, unless it is there. -/
def addFree (d : Declaration) (free : List Declaration) : List Declaration :=
  if free.any (·.id == d.id) then free else free ++ [d]

/-- Notes a use of `d`: it is free in every open function inside the one that declares it. -/
def noteUse (d : Declaration) : Reading Unit :=
  modify fun p =>
    let depth := p.nesting.getD d.id 0
    { p with
      functions := p.functions.take depth ++ (p.functions.drop depth).map (addFree d) }

end Reading

namespace Attempt

open Reading

/-- Ends an attempt with an error node. -/
def fail {α : Type} (error : Reading Node) : Attempt α := do
  throw (← error)

/-- Passes a token of kind `k`, which has to be the current one. -/
def expect (k : Token.Kind) : Attempt Unit := do
  if ← accept k then return ()
  fail (unexpected ("'" ++ k.describe ++ "'"))

/-- Ends the attempt if `n` is an error node. -/
def valid (n : Node) : Attempt Node :=
  if n.isInvalid then throw n else return n

/-- Declares a name in the innermost scope. -/
def declare (s : String) (place : Location) : Attempt Declaration := do
  let d : Declaration := ⟨← fresh, s, place⟩
  let p ← get
  match p.scope.declare d with
  | .error c => fail (errorAt place c.message)
  | .ok scope =>
    set { p with scope, nesting := p.nesting.insert d.id p.functions.length }
    return d

/-- Passes a name, which has to be the current token and is called `what` in the message. -/
def takeNameOr (what : String) : Attempt String := do
  match ← takeName with
  | some s => return s
  | none => fail (unexpected what)

/-- How an attempt ended, without ending this one. -/
def outcome {α : Type} (a : Attempt α) : Attempt (Except Node α) :=
  ExceptT.lift a.run

/-- The node that an attempt leaves in the tree, whichever way it ends. -/
def orError (a : Attempt Node) : Reading Node := do
  match ← a.run with
  | .ok n | .error n => return n

end Attempt

end Steppable
