import Steppable.Source.Location
import Steppable.Tree.Operator

/-!
# Expression trees and values

A script is one tree of nodes: statements, declarations and functions are expressions like any
other. Every node has an identity of its own, so that a breakpoint can be set on it, and its place
in the source. A declaration has an identity too: two declarations of one name are two variables.

Trees hold values (a literal is a value) and values hold trees (a function is code with the cells of
its free variables, a run-time fault names the node to blame), so the two are defined together.
-/

namespace Steppable

/-- A declared variable, parameter or function name. -/
structure Declaration where
  id : Nat
  name : String
  place : Location
  deriving Repr, DecidableEq, Inhabited

/-- The identity and the place of a node. -/
structure Tag where
  id : Nat := 0
  place : Location := {}
  deriving Repr, DecidableEq, Inhabited

/-- A change of a variable by one, with the value before or after it as the result. -/
structure Adjustment where
  /-- One is added rather than subtracted. -/
  increases : Bool
  /-- The operator stands before its operand, and the result is the new value. -/
  before : Bool
  deriving Repr, DecidableEq, Inhabited

mutual

/-- What an expression evaluates to. -/
inductive Value where
  | undefined
  | null
  | boolean (b : Bool)
  | number (x : Float)
  | string (s : String)
  /-- Milliseconds since the start of 1970. -/
  | date (millis : Int)
  | function (f : Closure)
  | error (fault : Fault)
  /-- A `break`, `continue` or `return` on its way out. -/
  | signal (kind : Jump) (culprit : Node) (value : Value)
  /-- A variable: reading it gives the value in its cell. -/
  | reference (cell : Nat)

/-- A function with the cells that its free variables had when it was made. The number tells apart
the functions that one literal makes. -/
structure Closure where
  id : Nat
  code : Lambda
  captures : List (Declaration × Nat)

/-- A run-time error: the node to blame, the message and the error before it in the same evaluation.
-/
structure Fault where
  id : Nat
  culprit : Node
  message : String
  previous : Option Fault

/-- A function literal. `free` lists the declarations outside it that its body uses, in order of
first use. -/
structure Lambda where
  name : Option Declaration
  params : List Declaration
  body : Node
  free : List Declaration

inductive Node where
  | constant (tag : Tag) (value : Value)
  /-- A name that no declaration binds: the host has to know it. -/
  | name (tag : Tag) (name : String)
  | member (tag : Tag) (left : Node) (name : String)
  | index (tag : Tag) (left : Node) (index : Node)
  | call (tag : Tag) (left : Node) (arguments : List Node)
  | binary (tag : Tag) (op : BinaryOp) (left right : Node)
  | unary (tag : Tag) (op : UnaryOp) (operand : Node)
  | assign (tag : Tag) (target value : Node)
  | adjust (tag : Tag) (change : Adjustment) (operand : Node)
  /-- A conditional expression (`ternary`), or `if` with `else`. -/
  | choice (tag : Tag) (ternary : Bool) (condition whenTrue whenFalse : Node)
  /-- An `if` without `else`. -/
  | guarded (tag : Tag) (condition body : Node)
  /-- A `while` loop; with `bodyFirst` a `do` loop. -/
  | loop (tag : Tag) (bodyFirst : Bool) (condition body : Node)
  | block (tag : Tag) (statements : List Node) (locals : List Declaration)
  /-- The place where a variable is declared. -/
  | declare (tag : Tag) (decl : Declaration)
  /-- A use of a declared variable. -/
  | var (tag : Tag) (decl : Declaration)
  | function (tag : Tag) (code : Lambda)
  /-- A `break` or `continue`, or a `return` without a value. -/
  | jump (tag : Tag) (kind : Jump)
  /-- A `return` with a value. -/
  | giveBack (tag : Tag) (value : Node)
  /-- The empty statement. -/
  | nop (tag : Tag)
  /-- A place where the source could not be read. -/
  | invalid (tag : Tag) (message : String)

end

instance : Inhabited Value := ⟨.undefined⟩
instance : Inhabited Node := ⟨.nop {}⟩

namespace Node

def tag : Node → Tag
  | constant t _ | name t _ | member t _ _ | index t _ _ | call t _ _ | binary t _ _ _
  | unary t _ _ | assign t _ _ | adjust t _ _ | choice t _ _ _ _ | guarded t _ _ | loop t _ _ _
  | block t _ _ | declare t _ | var t _ | function t _ | jump t _ | giveBack t _ | nop t
  | invalid t _ => t

def id (n : Node) : Nat := n.tag.id

def place (n : Node) : Location := n.tag.place

/-! ## Classes of nodes -/

/-- Whether evaluation can stop before the node. -/
def isBreakable : Node → Bool
  | binary .. | choice .. | guarded .. | loop .. | assign .. | adjust .. | jump .. | giveBack ..
  | index .. | call .. => true
  | _ => false

/-- The nodes that the host or a value resolves: names, members, indexing and calls. -/
def isAccessor : Node → Bool
  | name .. | member .. | index .. | call .. => true
  | _ => false

/-- Whether the node can stand on the left of an assignment. -/
def isAssignable : Node → Bool
  | var .. | declare .. => true
  | n => n.isAccessor

def isUnbound : Node → Bool
  | name .. => true
  | _ => false

def isInvalid : Node → Bool
  | invalid .. => true
  | _ => false

def isDeclare : Node → Bool
  | declare .. => true
  | _ => false

/-- Whether the node is the bare name `s` or a member of that name. -/
def isNamed (n : Node) (s : String) : Bool :=
  match n with
  | name _ t | member _ _ t => t == s
  | _ => false

/-! ## Parts of nodes -/

/-- The operand that an accessor is applied to. -/
def left? : Node → Option Node
  | member _ l _ | index _ l _ | call _ l _ => some l
  | _ => none

/-- The arguments of a call; the index of an indexing counts as one. -/
def arguments : Node → List Node
  | index _ _ i => [i]
  | call _ _ as => as
  | _ => []

/-- The nodes directly below a node, in the order in which they are listed. -/
def children : Node → List Node
  | member _ l _ => [l]
  | index _ l i => [l, i]
  | call _ l as => l :: as
  | binary _ _ l r => [l, r]
  | unary _ _ n => [n]
  | assign _ t v => [t, v]
  | adjust _ _ n => [n]
  | choice _ _ c t f => [c, t, f]
  | guarded _ c b => [c, b]
  | loop _ _ c b => [c, b]
  | block _ ss _ => ss
  | function _ code => [code.body]
  | giveBack _ v => [v]
  | constant .. | name .. | declare .. | var .. | jump .. | nop .. | invalid .. => []

end Node

mutual

/-- The node and all nodes below it with their depths, each before its children, where `n` itself
has depth `d`. -/
def Node.visits (d : Nat) : Node → List (Nat × Node)
  | n@(.member _ l _) => (d, n) :: l.visits (d + 1)
  | n@(.index _ l i) => (d, n) :: (l.visits (d + 1) ++ i.visits (d + 1))
  | n@(.call _ l as) => (d, n) :: (l.visits (d + 1) ++ Node.visitsAll (d + 1) as)
  | n@(.binary _ _ l r) => (d, n) :: (l.visits (d + 1) ++ r.visits (d + 1))
  | n@(.unary _ _ m) => (d, n) :: m.visits (d + 1)
  | n@(.assign _ t v) => (d, n) :: (t.visits (d + 1) ++ v.visits (d + 1))
  | n@(.adjust _ _ m) => (d, n) :: m.visits (d + 1)
  | n@(.choice _ _ c t f) =>
    (d, n) :: (c.visits (d + 1) ++ t.visits (d + 1) ++ f.visits (d + 1))
  | n@(.guarded _ c b) => (d, n) :: (c.visits (d + 1) ++ b.visits (d + 1))
  | n@(.loop _ _ c b) => (d, n) :: (c.visits (d + 1) ++ b.visits (d + 1))
  | n@(.block _ ss _) => (d, n) :: Node.visitsAll (d + 1) ss
  | n@(.function _ ⟨_, _, body, _⟩) => (d, n) :: body.visits (d + 1)
  | n@(.giveBack _ v) => (d, n) :: v.visits (d + 1)
  | n => [(d, n)]

/-- The visits of several nodes of one depth, one after the other. -/
def Node.visitsAll (d : Nat) : List Node → List (Nat × Node)
  | [] => []
  | n :: ns => n.visits d ++ Node.visitsAll d ns

end

namespace Node

/-- The node and all nodes below it, each before its children. A node that stands in two places is
listed twice. -/
def nodes (n : Node) : List Node :=
  (n.visits 1).map (·.2)

/-- The places where the source could not be read. -/
def invalids (n : Node) : List Node :=
  n.nodes.filter isInvalid

/-- The names left to the host. -/
def unbound (n : Node) : List Node :=
  n.nodes.filter isUnbound

end Node

namespace Fault

/-- The first error of the chain that ends in `f`. -/
def first : Fault → Fault
  | f@⟨_, _, _, none⟩ => f
  | ⟨_, _, _, some p⟩ => p.first
termination_by structural f => f

end Fault

end Steppable
