import Steppable.Machine.Step

/-!
# A lexical interpreter

The meaning of a tree, given by recursion on it. There are no frames, and no declaration has a stack
of cells: an environment says which cell each variable in scope has, a block and a call extend it
with new cells, and a function takes along the cells of its free variables. Cells are never used
again.

The interpreter knows the standard names and the members of values. What an accessor such as the
call in `Number(x)` means may be decided further inside, where the name is looked up; so an accessor
is evaluated together with those around it, and its value may be the value of some of them as well.

Fuel bounds the depth of the recursion and the rounds of a loop.
-/

namespace Steppable.Lexical

/-- The cells of the variables in scope, by the identities of their declarations. -/
abbrev Env := Nat → Option Nat

/-- Nothing is in scope. -/
def Env.empty : Env := fun _ => none

def Env.bind (env : Env) (d : Declaration) (cell : Nat) : Env :=
  fun k => if k = d.id then some cell else env k

/-- The environment of the cells that a function has captured. -/
def Env.ofCaptures (captures : List (Declaration × Nat)) : Env :=
  captures.foldl (fun env p => env.bind p.1 p.2) .empty

/-- What the interpreter has made so far: cells, errors and identities. -/
structure Store where
  values : Array Value := #[]
  lastFault : Option Fault := none
  next : Nat := 1

/-- A computation on the store that may run out of fuel. -/
abbrev Run := StateT Store Option

/-! ## Cells and errors -/

/-- A new cell. -/
def allocate (v : Value) : Run Nat := fun σ =>
  some (σ.values.size, { σ with values := σ.values.push v })

/-- The value of a variable; another value is its own. -/
def read (v : Value) : Run Value := fun σ =>
  match v with
  | .reference cell => some (σ.values.getD cell .undefined, σ)
  | v => some (v, σ)

def write (cell : Nat) (v : Value) : Run Unit := fun σ =>
  some ((), { σ with values := σ.values.setIfInBounds cell v })

/-- A new error, which remembers the one before it. -/
def fault (culprit : Node) (message : String) : Run Value := fun σ =>
  let f : Fault := ⟨σ.next, culprit, message, σ.lastFault⟩
  some (.error f, { σ with lastFault := some f, next := σ.next + 1 })

/-- The function of a literal with the cells `captures`. -/
def makeFunction (code : Lambda) (captures : List (Declaration × Nat)) : Run Value := fun σ =>
  some (.function ⟨σ.next, code, captures⟩, { σ with next := σ.next + 1 })

/-- The result of an operator. -/
def operation (n : Node) : Except String Value → Run Value
  | .ok v => pure v
  | .error message => fault n message

/-- New cells for the declarations, which begin with the values given; missing ones are undefined
and surplus ones are dropped. -/
def bindAll (env : Env) : List Declaration → List Value → Run Env
  | [], _ => pure env
  | d :: ds, vs => do
    let cell ← allocate (vs.headD .undefined)
    bindAll (env.bind d cell) ds vs.tail

/-! ## Nodes -/

/-- Evaluates a node in an environment, as the innermost of the given accessors. The number says how
many of these have the same value. -/
abbrev Evaluator := List Node → Env → Node → Run (Value × Nat)

section

variable (E : Evaluator) (env : Env)

/-- The value of a node that no accessor is applied to. -/
def alone (n : Node) : Run Value := do
  let r ← E [] env n
  return r.1

/-- Goes on with the value of a node; errors and signals go outwards instead. -/
def andThen (n : Node) (k : Value → Run Value) : Run Value := do
  let v ← alone E env n
  if v.isAbrupt then return v else k v

/-- Evaluates the nodes from left to right and goes on with their values. -/
def inOrder : List Node → (List Value → Run Value) → Run Value
  | [], k => k []
  | n :: ns, k => andThen E env n fun v => do
    let v ← read v
    inOrder ns fun vs => k (v :: vs)

/-- Evaluates the statements; the value is that of the last one. -/
def statements : List Node → Value → Run Value
  | [], last => pure last
  | n :: ns, _ => andThen E env n fun v => do
    let v ← read v
    statements ns v

/-- What a loop does after its body gave `v`. -/
def afterBody (v : Value) (again : Run Value) : Run Value :=
  match v with
  | .signal .break _ _ => pure .undefined
  | .signal .return _ _ | .error _ => pure v
  | _ => again

/-- The rounds of a loop, each of which begins with the condition. -/
def rounds (condition body : Node) : Nat → Run Value
  | 0 => fun _ => none
  | fuel + 1 => andThen E env condition fun x => do
    let x ← read x
    if x.toBoolean then
      let v ← alone E env body
      afterBody v (rounds condition body fuel)
    else return .undefined

/-- The result of a function whose body gave `v`. -/
def returned : Value → Run Value
  | .signal .return _ x => pure x
  | .signal _ culprit _ => fault culprit illegalJump
  | .error f => pure (.error f)
  | _ => pure .undefined

/-- Evaluates the body of a function in its own environment. -/
def activate (f : Closure) (vs : List Value) : Run Value := do
  let inner ← bindAll (.ofCaptures f.captures) f.code.params vs
  let v ← alone E inner f.code.body
  returned v

/-- Calls a function: the arguments are evaluated in the environment of the call. -/
def invoke (f : Closure) (arguments : List Node) : Run Value :=
  inOrder E env arguments (activate E f)

/-- A variable as such. -/
def variableOf (n : Node) (d : Declaration) : Run Value :=
  match env d.id with
  | some cell => pure (.reference cell)
  | none => fault n (Machine.unregistered d)

/-- The cells of the declarations, or the first one that is not in scope. -/
def capture : List Declaration → Except Declaration (List (Declaration × Nat))
  | [] => .ok []
  | d :: ds =>
    match env d.id with
    | none => .error d
    | some cell => (capture ds).map ((d, cell) :: ·)

/-- The function of a literal, which is also stored in the variable of its name. -/
def literal (n : Node) (code : Lambda) : Run Value :=
  match capture env code.free with
  | .error d => fault n (Machine.unregistered d)
  | .ok captures => do
    let f ← makeFunction code captures
    match code.name with
    | none => return f
    | some d =>
      match env d.id with
      | none => fault n (Machine.unregistered d)
      | some cell => do
        write cell f
        return f

/-- The value of a node that is no accessor. -/
def simple (fuel : Nat) (n : Node) : Run Value :=
  match n with
  | .constant _ v => pure v
  | .nop _ => pure .undefined
  | .invalid _ message => fault n message
  | .declare _ d | .var _ d => variableOf env n d
  | .function _ code => literal env n code
  | .binary _ op l r => andThen E env l fun x => do
    let x ← read x
    match op with
    | .connective .and => if x.toBoolean then andThen E env r read else return x
    | .connective .or => if x.toBoolean then return x else andThen E env r read
    | op => andThen E env r fun y => do
      let y ← read y
      operation n (op.apply x y)
  | .unary _ op operand => andThen E env operand fun x => do
    let x ← read x
    operation n (op.apply x)
  | .assign _ target value => andThen E env target fun x =>
    match x with
    | .reference cell => andThen E env value fun y => do
      let y ← read y
      write cell y
      return y
    | _ => fault n "Invalid assignment left-hand side."
  | .adjust _ change operand => andThen E env operand fun x =>
    match x with
    | .reference cell => do
      let x ← read (.reference cell)
      let new := if change.increases then x.toNumber + 1 else x.toNumber - 1
      write cell (.ofNumber new)
      return .ofNumber (if change.before then new else x.toNumber)
    | _ => fault n "Invalid increment or decrement operand."
  | .choice _ _ condition whenTrue whenFalse => andThen E env condition fun x => do
    let x ← read x
    alone E env (if x.toBoolean then whenTrue else whenFalse)
  | .guarded _ condition body => andThen E env condition fun x => do
    let x ← read x
    if x.toBoolean then alone E env body else return .undefined
  | .loop _ bodyFirst condition body =>
    if bodyFirst then do
      let v ← alone E env body
      afterBody v (rounds E env condition body fuel)
    else rounds E env condition body fuel
  | .block _ ss locals => do
    let inner ← bindAll env locals []
    statements E inner ss .undefined
  | .jump _ k => pure (.signal k n .undefined)
  | .giveBack _ value => andThen E env value fun x => do
    let x ← read x
    return .signal .return n x
  | .name .. | .member .. | .index .. | .call .. => pure .undefined

/-! ## Accessors -/

/-- What a handler says about the accessor `n`. -/
def reply (n : Node) : Host.Answer → Run Value
  | .value v => pure v
  | .fail message => fault n message
  | .anew _ | .failAndPass _ | .decline => pure .undefined

/-- Lets the first of the rules answer that reaches out from the accessor `n`. -/
def ask (outer : List Node) (n : Node) (rules : List Host.Rule) : Run (Value × Nat) :=
  match rules.findSome? fun r => (r.reach? (n :: outer)).map (r, ·) with
  | none => do
    let v ← fault n (Machine.unknownAccessor n)
    return (v, 0)
  | some (r, k) => do
    let reached := (n :: outer).getD k n
    let v ← inOrder E env (reached.arguments.take (r.ending.arity?.getD 0)) fun vs =>
      reply reached (r.handler ⟨vs, []⟩ {}).1
    return (v, k)

/-- Evaluates what the accessor `n` is applied to and goes on with its value, unless that is already
the value of `n`. -/
def through (outer : List Node) (n left : Node) (k : Value → Run (Value × Nat)) :
    Run (Value × Nat) := do
  let r ← E (n :: outer) env left
  match r.2 with
  | j + 1 => return (r.1, j)
  | 0 =>
    if r.1.isAbrupt then return (r.1, 0)
    else do
      let v ← read r.1
      k v

def node (fuel : Nat) (outer : List Node) (n : Node) : Run (Value × Nat) :=
  match n with
  | .name .. => ask E env outer n Host.standard
  | .member _ left _ | .index _ left _ => through E env outer n left fun v =>
    ask E env outer n (Host.members v)
  | .call _ left arguments => through E env outer n left fun v =>
    match v with
    | .function f => do
      let v ← invoke E env f arguments
      return (v, 0)
    | v => ask E env outer n (Host.members v)
  | n => do
    let v ← simple E env fuel n
    return (v, 0)

end

/-- Evaluates a node. -/
def eval : Nat → Evaluator
  | 0 => fun _ _ _ _ => none
  | fuel + 1 => fun outer env n => node (eval fuel) env fuel outer n

/-- Evaluates a script. -/
def evaluate (fuel : Nat) (n : Node) : Run Value := do
  let v ← alone (eval fuel) .empty n
  match v with
  | .signal .return _ x => return x
  | .signal _ culprit _ => fault culprit illegalJump
  | v => read v

end Steppable.Lexical
