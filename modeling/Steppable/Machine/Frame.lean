import Steppable.Cells
import Steppable.Host.Standard

/-!
# Frames

A node that waits for the value of another one has a frame on the stack. Its phase says which value
it waits for and keeps the values it has already got. The call of a function has two frames: one for
the call and, right above it, one for the activation, which evaluates the arguments and then the
body.

A frame can be given its result while frames above it are still at work: the host answers for an
accessor from the innermost name of its chain.
-/

namespace Steppable

/-- What a frame waits for. -/
inductive Phase where
  /-- Nothing yet: its node has not begun. -/
  | ready
  /-- The left operand of a binary operation. -/
  | leftOperand
  /-- The right operand, the left one being `left`. -/
  | rightOperand (left : Value)
  /-- The operand of a unary operation or a change by one, or the value to return. -/
  | operand
  /-- The variable to assign to. -/
  | target
  /-- The value to assign to the cell. -/
  | assigned (cell : Nat)
  /-- The condition of a choice or a loop. -/
  | condition
  /-- The branch of a choice that was taken. -/
  | branch
  /-- The body of a loop. -/
  | body
  /-- A statement of a block, before those in `rest`. -/
  | statement (rest : List Node)
  /-- The operand that an accessor is applied to. -/
  | accessed
  /-- An argument of the accessor `distance` frames below, for the first of `rules`. -/
  | asking (distance : Nat) (rules : List Host.Rule)
  /-- The activation of the function that is called. -/
  | activation
  /-- An argument of the call of `callee`, after those in `done` and before those in `rest`. -/
  | argument (callee : Closure) (done : List Value) (rest : List Node)
  /-- The body of `callee`, whose parameters are bound. -/
  | running (callee : Closure)

/-- Arguments evaluated for a host: how many were asked for first, and those there are. The argument
that is being evaluated is not among them. -/
structure Gathered where
  wanted : Nat
  values : List Value

structure Frame where
  node : Node
  phase : Phase := .ready
  /-- The result, once the host has set it. -/
  result : Option Value := none
  /-- The arguments evaluated for the host. -/
  gathered : Option Gathered := none

namespace Frame

/-- Whether `inner` evaluates the operand that the accessor of `outer` is applied to. -/
def isOperandOf (inner outer : Frame) : Bool :=
  match outer.node.left? with
  | some l => l.id == inner.node.id
  | none => false

/-- The variables that end with the frame, in order of their declaration. -/
def ownVariables (f : Frame) : List Declaration :=
  match f.phase, f.node with
  | .statement _, .block _ _ locals => locals
  | .running callee, _ => callee.captures.map (·.1) ++ callee.code.params
  | _, _ => []

/-- The arguments that the accessor of a frame has for a host that asks for `arity` of them. How
many there will be is settled the first time. -/
def gatheredFor (f : Frame) (arity : Nat) : Gathered :=
  f.gathered.getD ⟨min arity f.node.arguments.length, []⟩

end Frame

/-- The frames from the first of `frames` outwards that form one chain of accessors. -/
def accessorChain : List Frame → List Frame
  | [] => []
  | [f] => [f]
  | f :: g :: outer => if f.isOperandOf g then f :: accessorChain (g :: outer) else [f]

/-- Gives the result `v` to the frames above `outer`, from the outermost inwards, as long as they
belong to its chain of accessors and have no result. -/
def spreadResult (v : Value) (outer : Frame) : List Frame → List Frame
  | [] => []
  | f :: inner =>
    if f.isOperandOf outer && f.result.isNone then
      { f with result := some v } :: spreadResult v f inner
    else f :: inner

/-- Gives the result `v` to the frame at `distance` and to the accessors above it. The innermost
frame comes first. -/
def setResult (v : Value) (distance : Nat) (frames : List Frame) : List Frame :=
  match frames.drop distance with
  | [] => frames
  | f :: outer =>
    (spreadResult v f (frames.take distance).reverse).reverse ++
      { f with result := some v } :: outer

/-- Ends the variables of a frame, the last one first. -/
def Cells.leave (s : Cells) (f : Frame) : Cells :=
  s.unregisterAll f.ownVariables

/-- Ends the variables of several frames, those of the innermost frame first. -/
def Cells.unwind (s : Cells) (frames : List Frame) : Cells :=
  frames.foldl leave s

end Steppable
