import Steppable.Machine.Frame
import Steppable.Value.Operation

/-!
# One step of evaluation

The machine holds the stack of frames, the cells and what the host remembers. A step does one of
three things: it enters a node, begins the node of the top frame, or gives a value to the top frame.
A node that has nothing to wait for gives its value at once; every other one gets a frame.
Evaluation can stop right after such a frame is pushed, before its node begins.

Errors and signals go outwards: a frame that receives one adopts it as its own result, apart from
loops, which handle `break` and `continue`, and activations, which handle `return`.
-/

namespace Steppable

/-- The nodes before which evaluation stops. -/
structure Breakpoints where
  nodes : List Nat := []
  /-- Stop before every node that evaluation can stop before. -/
  always : Bool := false
  deriving Repr, DecidableEq, Inhabited

namespace Breakpoints

def contains (b : Breakpoints) (n : Node) : Bool :=
  b.nodes.contains n.id

/-- Sets a breakpoint, and tells whether it is a new one. Only some nodes accept one. -/
def add (b : Breakpoints) (n : Node) : Bool × Breakpoints :=
  if n.isBreakable && !b.contains n then (true, { b with nodes := b.nodes ++ [n.id] })
  else (false, b)

/-- Removes a breakpoint, and tells whether there was one. -/
def remove (b : Breakpoints) (n : Node) : Bool × Breakpoints :=
  (b.contains n, { b with nodes := b.nodes.filter (· != n.id) })

def clear (b : Breakpoints) : Breakpoints :=
  { b with nodes := [] }

def stopsAt (b : Breakpoints) (n : Node) : Bool :=
  b.always || b.contains n

end Breakpoints

structure Machine where
  host : Host := Host.standard
  record : Host.Record := {}
  /-- The handlers called so far and what they were asked, the latest call first. -/
  calls : List Host.Call := []
  cells : Cells := {}
  /-- The stack, the innermost frame first. -/
  frames : List Frame := []
  breakpoints : Breakpoints := {}
  /-- Stop before the next node that evaluation can stop before. -/
  stopNext : Bool := false
  /-- The last error of this evaluation. -/
  lastFault : Option Fault := none
  /-- The result of the last evaluation that ended. -/
  result : Option Value := none
  /-- The identities of the global declarations that have a cell. -/
  globals : List Nat := []
  /-- The next unused identity of a function or an error. -/
  next : Nat := 1

/-- What the machine does next. -/
inductive Focus where
  /-- Evaluate this node. -/
  | enter (n : Node)
  /-- Begin the node of the top frame. -/
  | begin
  /-- Give this value to the top frame, or to whoever asked for the evaluation. -/
  | give (v : Value)

/-- How a step ends. -/
inductive Progress where
  | running (focus : Focus)
  | suspended
  | finished (v : Value)

/-- How many frames a node may find on the stack when it wants one itself. -/
def maxFrames : Nat := 256

def tooDeep : String := "Maximum call depth exceeded."

def illegalJump : String := "Illegal break or continue statement."

namespace Machine

/-! ## Errors -/

/-- A new error, which remembers the one before it. -/
def fault (m : Machine) (culprit : Node) (message : String) : Value × Machine :=
  let f : Fault := ⟨m.next, culprit, message, m.lastFault⟩
  (.error f, { m with lastFault := some f, next := m.next + 1 })

/-! ## Moving on -/

/-- Gives a value to whoever waits for it. -/
def give (m : Machine) (v : Value) : Machine × Progress :=
  (m, .running (.give v))

/-- Ends the top frame with the result `v`. -/
def finish (m : Machine) (v : Value) : Machine × Progress :=
  match m.frames with
  | [] => m.give v
  | f :: outer => { m with frames := outer, cells := m.cells.leave f }.give v

/-- Ends the top frame with an error. -/
def finishFault (m : Machine) (culprit : Node) (message : String) : Machine × Progress :=
  let (v, m) := m.fault culprit message
  m.finish v

/-- Ends the top frame with the result of an operator. -/
def finishOperation (m : Machine) (n : Node) : Except String Value → Machine × Progress
  | .ok v => m.finish v
  | .error message => m.finishFault n message

/-- The top frame waits in the given phase for the value of `n`. -/
def await (m : Machine) (phase : Phase) (n : Node) : Machine × Progress :=
  match m.frames with
  | [] => (m, .running (.enter n))
  | f :: outer => ({ m with frames := { f with phase } :: outer }, .running (.enter n))

/-! ## Entering nodes -/

def unregistered (d : Declaration) : String :=
  "Unregistered variable: " ++ d.name

/-- Gives the variable `d` itself. -/
def giveVariable (m : Machine) (n : Node) (d : Declaration) : Machine × Progress :=
  match m.cells.find? d with
  | some cell => m.give (.reference cell)
  | none =>
    let (v, m) := m.fault n (unregistered d)
    m.give v

/-- The current cells of the declarations, each marked as captured, or the first declaration that
has none. -/
def captureAll (s : Cells) :
    List Declaration → Except Declaration (List (Declaration × Nat)) × Cells
  | [] => (.ok [], s)
  | d :: ds =>
    match s.find? d with
    | none => (.error d, s)
    | some cell =>
      match captureAll (s.capture cell) ds with
      | (.ok captures, s) => (.ok ((d, cell) :: captures), s)
      | (.error d, s) => (.error d, s)

/-- Makes the function of a literal, and stores it in the variable of its name. -/
def giveFunction (m : Machine) (n : Node) (code : Lambda) : Machine × Progress :=
  match captureAll m.cells code.free with
  | (.error d, cells) =>
    let (v, m) := { m with cells }.fault n (unregistered d)
    m.give v
  | (.ok captures, cells) =>
    let v := Value.function ⟨m.next, code, captures⟩
    let m := { m with cells, next := m.next + 1 }
    match code.name with
    | none => m.give v
    | some d =>
      match m.cells.find? d with
      | some cell => { m with cells := m.cells.set cell v }.give v
      | none =>
        let (v, m) := m.fault n (unregistered d)
        m.give v

/-- Pushes a frame for `n`, and stops there if a breakpoint says so. -/
def push (m : Machine) (n : Node) : Machine × Progress :=
  if m.frames.length ≥ maxFrames then
    let (v, m) := m.fault n tooDeep
    m.give v
  else
    let m := { m with frames := { node := n } :: m.frames }
    if n.isBreakable && (m.stopNext || m.breakpoints.stopsAt n) then
      ({ m with stopNext := false }, .suspended)
    else (m, .running .begin)

def enter (m : Machine) (n : Node) : Machine × Progress :=
  match n with
  | .constant _ v => m.give v
  | .nop _ => m.give .undefined
  | .invalid _ message =>
    let (v, m) := m.fault n message
    m.give v
  | .declare _ d | .var _ d => m.giveVariable n d
  | .function _ code => m.giveFunction n code
  | _ => m.push n

/-! ## Asking the host -/

/-- The rules that the host goes by, as it remembers things now. -/
def rules (m : Machine) : List Host.Rule :=
  m.host.rules m.record

theorem forall_rules {m : Machine} {P : Host.Rule → Prop} (h : ∀ r ∈ m.host, P r) :
    ∀ r ∈ m.rules, P r :=
  fun r hr => h r (Host.mem_of_rules hr)

/-- The links of the chain of accessors at the top of the stack, the innermost first. -/
def links (m : Machine) : List Host.Link :=
  (accessorChain m.frames).mapIdx fun i f => ⟨m.frames.length - 1 - i, f.node⟩

/-- What is wrong with an accessor that nobody knows. -/
def unknownAccessor : Node → String
  | .name _ s => "Undefined in scope: " ++ s
  | .member _ _ s => "Unknown property: " ++ s
  | .index .. => "Indexer is not supported."
  | _ => "Not a function."

/-- Ends the top frame with the result that it has been given, or else with `v`. -/
def finishResolved (m : Machine) (v : Value) : Machine × Progress :=
  match m.frames with
  | f :: _ => m.finish (f.result.getD v)
  | [] => m.finish v

/-- Gives the result `v` to the accessor at `distance`. -/
def setResult (m : Machine) (distance : Nat) (v : Value) : Machine :=
  { m with frames := Steppable.setResult v distance m.frames }

/-- Leaves an error on the accessor at `distance`. -/
def setFault (m : Machine) (distance : Nat) (message : String) : Value × Machine :=
  match m.frames[distance]? with
  | some f =>
    let (v, m) := m.fault f.node message
    (v, m.setResult distance v)
  | none => (.undefined, m)

/-- The arguments gathered for the accessor at `distance` and the next one to evaluate, if any. An
argument whose evaluation has been given up is the next one again and is evaluated from the start. -/
def gather (m : Machine) (distance arity : Nat) : List Value × Option Node × Machine :=
  match m.frames[distance]? with
  | none => ([], none, m)
  | some f =>
    let g := f.gatheredFor arity
    let m := { m with frames := m.frames.set distance { f with gathered := some g } }
    (g.values, (f.node.arguments.take g.wanted)[g.values.length]?, m)

/-- The arguments for a rule that has reached the accessor at `distance`: those there are and the
next one to evaluate, if any. -/
def prepare (m : Machine) (r : Host.Rule) (distance : Nat) : List Value × Option Node × Machine :=
  match r.ending.arity? with
  | some arity => m.gather distance arity
  | none => ([], none, m)

/-- Adds an argument to those gathered for the accessor at `distance`. -/
def addArgument (m : Machine) (distance : Nat) (v : Value) : Machine :=
  { m with
    frames := m.frames.modify distance fun f =>
      { f with gathered := f.gathered.map fun g => { g with values := g.values ++ [v] } } }

/-- Lets a handler answer for the accessor at `distance`: the value of the accessor, or none if the
handler passes it on. -/
def answer (m : Machine) (r : Host.Rule) (distance : Nat) (arguments : List Value) :
    Option Value × Machine :=
  let q : Host.Request := ⟨arguments, m.links.take (distance + 1)⟩
  let (a, record) := r.handler q m.record
  let m := { m with record, calls := ⟨r, q⟩ :: m.calls }
  match a with
  | .value v => (some v, m.setResult distance v)
  | .anew v =>
    let v := v.renewed m.next
    (some v, { m with next := m.next + 1 }.setResult distance v)
  | .fail message =>
    let (v, m) := m.setFault distance message
    (some v, m)
  | .failAndPass message => (none, (m.setFault distance message).2)
  | .decline => (none, m)

/-- Asks the rules about the accessor `n` of the top frame, one after the other. -/
def consult (n : Node) : List Host.Rule → Machine → Machine × Progress
  | [], m => m.finishFault n (unknownAccessor n)
  | r :: rules, m =>
    match r.reach? (m.links.map (·.node)) with
    | none => consult n rules m
    | some distance =>
      match m.prepare r distance with
      | (_, some argument, m) => m.await (.asking distance (r :: rules)) argument
      | (arguments, none, m) =>
        match m.answer r distance arguments with
        | (some v, m) => m.finishResolved v
        | (none, m) => consult n rules m

/-! ## Calling functions -/

/-- Binds the parameters to the arguments; missing ones are undefined and surplus ones are dropped.
-/
def bindParams (s : Cells) : List Declaration → List Value → Cells
  | [], _ => s
  | d :: ds, vs =>
    let (cell, s) := s.register d
    bindParams (s.set cell (vs.headD .undefined)) ds vs.tail

/-- Binds the free variables of a function to the cells that it captured, and its parameters. -/
def activate (s : Cells) (callee : Closure) (arguments : List Value) : Cells :=
  bindParams (callee.captures.foldl (fun s (d, cell) => s.push d cell) s)
    callee.code.params arguments

/-- Evaluates the next argument of the activation at the top, or else its body. -/
def nextArgument (m : Machine) (callee : Closure) (done : List Value) :
    List Node → Machine × Progress
  | n :: rest => m.await (.argument callee done rest) n
  | [] =>
    { m with cells := activate m.cells callee done }.await (.running callee) callee.code.body

/-- Pushes the activation of `callee` above its call. -/
def call (m : Machine) (n : Node) (callee : Closure) : Machine × Progress :=
  let frames := match m.frames with
    | f :: outer => { f with phase := .activation } :: outer
    | [] => []
  { m with frames := { node := n } :: frames }.nextArgument callee [] n.arguments

/-! ## Beginning a node -/

/-- Evaluates the first of the statements, or ends the block with `last`. -/
def nextStatement (m : Machine) (last : Value) : List Node → Machine × Progress
  | n :: rest => m.await (.statement rest) n
  | [] => m.finish last

/-- Begins the node of the top frame. -/
def begin (m : Machine) (n : Node) : Machine × Progress :=
  match n with
  | .binary _ _ l _ => m.await .leftOperand l
  | .unary _ _ operand | .adjust _ _ operand | .giveBack _ operand => m.await .operand operand
  | .member _ l _ | .index _ l _ | .call _ l _ => m.await .accessed l
  | .name .. => consult n m.rules m
  | .assign _ target _ => m.await .target target
  | .choice _ _ c _ _ | .guarded _ c _ => m.await .condition c
  | .loop _ bodyFirst c b => if bodyFirst then m.await .body b else m.await .condition c
  | .block _ statements locals =>
    match m.frames with
    | f :: outer =>
      { m with
        frames := { f with phase := .statement statements } :: outer
        cells := m.cells.registerAll locals }.nextStatement .undefined statements
    | [] => m.finish .undefined
  | .jump _ k => m.finish (.signal k n .undefined)
  | .constant .. | .declare .. | .var .. | .function .. | .nop .. | .invalid .. =>
    m.finish .undefined

/-! ## Giving a value to a frame -/

/-- A plain value arrives at a frame that adopts errors and signals. -/
def receivePlain (m : Machine) (f : Frame) (v : Value) : Machine × Progress :=
  let plain := m.cells.deref v
  match f.phase, f.node with
  | .leftOperand, .binary _ (.connective .and) _ r =>
    if plain.toBoolean then m.await (.rightOperand plain) r else m.finish plain
  | .leftOperand, .binary _ (.connective .or) _ r =>
    if plain.toBoolean then m.finish plain else m.await (.rightOperand plain) r
  | .leftOperand, .binary _ _ _ r => m.await (.rightOperand plain) r
  | .rightOperand l, n@(.binary _ op _ _) =>
    if op.isLogical then m.finish plain else m.finishOperation n (op.apply l plain)
  | .operand, n@(.unary _ op _) => m.finishOperation n (op.apply plain)
  | .operand, n@(.giveBack ..) => m.finish (.signal .return n plain)
  | .operand, n@(.adjust _ a _) =>
    match v with
    | .reference cell =>
      let old := (m.cells.get cell).toNumber
      let new := if a.increases then old + 1 else old - 1
      { m with cells := m.cells.set cell (.ofNumber new) }.finish
        (.ofNumber (if a.before then new else old))
    | _ => m.finishFault n "Invalid increment or decrement operand."
  | .target, n@(.assign _ _ value) =>
    match v with
    | .reference cell => m.await (.assigned cell) value
    | _ => m.finishFault n "Invalid assignment left-hand side."
  | .assigned cell, _ => { m with cells := m.cells.set cell plain }.finish plain
  | .condition, .choice _ _ _ a b => m.await .branch (if plain.toBoolean then a else b)
  | .condition, .guarded _ _ b =>
    if plain.toBoolean then m.await .branch b else m.finish .undefined
  | .condition, .loop _ _ _ b =>
    if plain.toBoolean then m.await .body b else m.finish .undefined
  | .statement rest, _ => m.nextStatement plain rest
  | .accessed, n =>
    match f.result with
    | some result => m.finish result
    | none =>
      match n, plain with
      | .call .., .function callee => m.call n callee
      | _, _ => consult n (Host.members plain) m
  | .argument callee done rest, _ => m.nextArgument callee (done ++ [plain]) rest
  | _, _ => m.finish v

/-- The next round of a loop after its body gave `v`. -/
def receiveBody (m : Machine) (n : Node) (v : Value) : Machine × Progress :=
  match v, n with
  | .signal .break .., _ => m.finish .undefined
  | .signal .return .., _ | .error _, _ => m.finish v
  | _, .loop _ _ c _ => m.await .condition c
  | _, _ => m.finish v

/-- The result of an activation whose body gave `v`. -/
def receiveReturn (m : Machine) (v : Value) : Machine × Progress :=
  match v with
  | .signal .return _ value => m.finish value
  | .signal _ culprit _ => m.finishFault culprit illegalJump
  | .error _ => m.finish v
  | _ => m.finish .undefined

/-- An argument for the host arrives: an error or a signal becomes the result of the accessor that
it belongs to. -/
def receiveArgument (m : Machine) (n : Node) (distance : Nat) (rules : List Host.Rule) (v : Value) :
    Machine × Progress :=
  let plain := m.cells.deref v
  if plain.isAbrupt then (m.setResult distance plain).finishResolved plain
  else consult n rules (m.addArgument distance plain)

/-- The value `v` arrives at the top frame `f`. -/
def receive (m : Machine) (f : Frame) (v : Value) : Machine × Progress :=
  match f.phase with
  | .body => m.receiveBody f.node v
  | .running _ => m.receiveReturn v
  | .asking distance rules => m.receiveArgument f.node distance rules v
  | .activation | .branch => m.finish v
  | _ => if v.isAbrupt then m.finish v else m.receivePlain f v

/-- One step. -/
def step (m : Machine) : Focus → Machine × Progress
  | .enter n => m.enter n
  | .begin =>
    match m.frames with
    | f :: _ => m.begin f.node
    | [] => m.give .undefined
  | .give v =>
    match m.frames with
    | f :: _ => m.receive f v
    | [] => (m, .finished v)

end Machine

end Steppable
