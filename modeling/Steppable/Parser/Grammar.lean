import Steppable.Parser.Basic

/-!
# The grammar

Expressions are read by climbing operator levels: an operand, then every operator that binds more
strongly than the power asked for, each with its own operand on the right. Statements are operands
too, so they can stand wherever an expression can.

Each function spends one unit of fuel, and every loop or nested call passes a token, notes an error
or ends; a fixed number of units per token is enough.
-/

namespace Steppable.Parser

open Reading Attempt

/-- The power asked for by the operand of an operator in front: what is written after the operand
still belongs to it. -/
def unaryPower : Nat := 27

/-- The power of an argument, or of the value of a declaration: it ends before a comma. -/
def argumentPower : Nat := Token.Kind.comma.precedence

/-- The power of what grouping to the right asks for on the right of an operator. -/
def rightPower (k : Token.Kind) : Nat := k.precedence - 1

/-- Whether a token of kind `k` continues the expression on its left. -/
def continues : Token.Kind → Bool
  | .binary _ | .assign | .compound _ | .dot | .openPar | .openSquare | .questionMark
  | .increment | .decrement => true
  | _ => false

/-- The constants with a name. -/
def namedConstant? : String → Option Value
  | "true" => some (.boolean true)
  | "false" => some (.boolean false)
  | "null" => some .null
  | "undefined" => some .undefined
  | _ => none

/-- An operation on two operands, at the place that covers both. -/
def binaryNode (op : BinaryOp) (left right : Node) : Reading Node :=
  node (left.place.extend right.place) (.binary · op left right)

/-- A use of the name `s`: of its declaration, or of the host if it has none. -/
def nameNode (s : String) (place : Location) : Reading Node := do
  match (← get).scope.find? s with
  | some d =>
    noteUse d
    node place (.var · d)
  | none => node place (.name · s)

def notAdjustable : String := "Invalid increment or decrement operand."

mutual

/-- An expression of operators that bind more strongly than `power`. -/
def expression : Nat → Nat → Reading Node
  | 0, _ => outOfFuel
  | fuel + 1, power => do
    if (← kind).isLast then unexpected "expression"
    else
      let left ← orError (operand fuel power)
      operations fuel power left

/-- Continues the expression `left` as long as an operator binds more strongly than `power`. -/
def operations : Nat → Nat → Node → Reading Node
  | 0, _, _ => outOfFuel
  | fuel + 1, power, left => do
    let k ← kind
    if !(← hasFailed) && k.precedence > power && continues k then
      let left ← orError (operation fuel left)
      operations fuel power left
    else return left

/-- What an expression begins with. -/
def operand : Nat → Nat → Attempt Node
  | 0, _ => outOfFuel
  | fuel + 1, power => do
    let place ← here
    let token := (← get).cursor.current
    let k := token.kind
    match k with
    | .number _ =>
      forward
      node place (.constant · (.number token.number))
    | .string =>
      forward
      node place (.constant · (.string token.text))
    | .regex => fail (errorAt place "Regular expressions are not supported.")
    | .increment | .decrement =>
      forward
      let n ← valid (← expression fuel unaryPower)
      if n.isAssignable then
        node (← spanFrom place) (.adjust · ⟨k = .increment, true⟩ n)
      else fail (errorAt n.place notAdjustable)
    | .identifier => named fuel place token.text
    | .openPar =>
      forward
      let n ← valid (← expression fuel 0)
      expect .closePar
      return n
    | .openCurly =>
      forward
      block fuel place
    | _ =>
      match k.unary? with
      | some op =>
        forward
        let n ← expression fuel unaryPower
        node (← spanFrom place) (.unary · op n)
      | none =>
        if k = .semicolon && power = 0 then node place .nop
        else fail (unexpected "expression")

/-- The operation on `left` that begins with the current token. -/
def operation : Nat → Node → Attempt Node
  | 0, _ => outOfFuel
  | fuel + 1, left => do
    let k ← kind
    match k with
    | .binary op =>
      forward
      let right ← expression fuel (if op.isLogical then rightPower k else k.precedence)
      binaryNode op left right
    | .dot =>
      forward
      let s ← takeNameOr "member name"
      node (← spanFrom left.place) (.member · left s)
    | .openSquare =>
      forward
      let i ← valid (← expression fuel 0)
      expect .closeSquare
      node (← spanFrom left.place) (.index · left i)
    | .openPar =>
      forward
      let as ← arguments fuel
      node (← spanFrom left.place) (.call · left as)
    | .questionMark =>
      forward
      let a ← valid (← expression fuel (rightPower .assign))
      expect .colon
      let b ← expression fuel (rightPower k)
      node (left.place.extend b.place) (.choice · true left a b)
    | .assign =>
      if left.isAssignable then
        forward
        let v ← expression fuel (rightPower k)
        node (left.place.extend v.place) (.assign · left v)
      else fail (errorAt left.place "Invalid assignment target.")
    | .compound op =>
      if left.isAssignable then
        forward
        let v ← binaryNode (.arith op) left (← expression fuel (rightPower k))
        node (left.place.extend v.place) (.assign · left v)
      else fail (errorAt left.place "Invalid assignment target.")
    | .increment | .decrement =>
      if left.isAssignable then
        forward
        node (← spanFrom left.place) (.adjust · ⟨k = .increment, false⟩ left)
      else fail (errorAt left.place notAdjustable)
    | _ => fail (unexpected "operator")

/-- The arguments of a call, after its parenthesis. -/
def arguments : Nat → Attempt (List Node)
  | 0 => outOfFuel
  | fuel + 1 => do
    if ← accept .closePar then return []
    else
      let as ← argumentList fuel
      expect .closePar
      return as

/-- One or more arguments with commas between them. -/
def argumentList : Nat → Attempt (List Node)
  | 0 => outOfFuel
  | fuel + 1 => do
    let a ← valid (← expression fuel argumentPower)
    if ← accept .comma then return a :: (← argumentList fuel)
    else return [a]

/-- What begins with a name: a constant, a statement or a use of the name. -/
def named : Nat → Location → String → Attempt Node
  | 0, _, _ => outOfFuel
  | fuel + 1, place, s => do
    match namedConstant? s with
    | some v =>
      forward
      node place (.constant · v)
    | none =>
      match s with
      | "if" => ifStatement fuel place
      | "while" => whileStatement fuel place
      | "do" => doStatement fuel place
      | "var" =>
        forward
        let ds ← declarators fuel
        blockOf (← spanFrom place) ds []
      | "function" => function fuel place
      | "break" =>
        forward
        node place (.jump · .break)
      | "continue" =>
        forward
        node place (.jump · .continue)
      | "return" => returnStatement fuel place
      | "else" => fail (errorAt place "Unexpected 'else'.")
      | _ =>
        forward
        nameNode s place

/-- The condition of a statement, in parentheses. -/
def condition : Nat → Attempt Node
  | 0 => outOfFuel
  | fuel + 1 => do
    expect .openPar
    let c ← valid (← expression fuel 0)
    expect .closePar
    return c

def ifStatement : Nat → Location → Attempt Node
  | 0, _ => outOfFuel
  | fuel + 1, place => do
    forward
    let c ← condition fuel
    let a ← statement fuel
    let otherwise ← (do if ← hasFailed then return false else acceptName "else" : Reading Bool)
    if otherwise then
      let b ← statement fuel
      node (← spanFrom place) (.choice · false c a b)
    else node (← spanFrom place) (.guarded · c a)

def whileStatement : Nat → Location → Attempt Node
  | 0, _ => outOfFuel
  | fuel + 1, place => do
    forward
    let c ← condition fuel
    let b ← statement fuel
    node (← spanFrom place) (.loop · false c b)

def doStatement : Nat → Location → Attempt Node
  | 0, _ => outOfFuel
  | fuel + 1, place => do
    forward
    let b ← valid (← statement fuel)
    if ← acceptName "while" then
      let c ← condition fuel
      node (← spanFrom place) (.loop · true c b)
    else fail (unexpected "'while'")

/-- The declarations of a `var` statement, with commas between them. -/
def declarators : Nat → Attempt (List Node)
  | 0 => outOfFuel
  | fuel + 1 => do
    let place ← here
    let s ← takeNameOr "variable name"
    let d ← declare s place
    let target ← node place (.declare · d)
    let n ← (do
      if ← accept .assign then
        let v ← expression fuel argumentPower
        node (place.extend v.place) (.assign · target v)
      else return target : Reading Node)
    let more ← (do if ← hasFailed then return false else accept .comma : Reading Bool)
    if more then return n :: (← declarators fuel)
    else return [n]

/-- A function literal. Its own name, if it has one, is declared outside it. -/
def function : Nat → Location → Attempt Node
  | 0, _ => outOfFuel
  | fuel + 1, place => do
    forward
    let own ← (do
      match ← takeName with
      | some s => return some (← declare s (← get).cursor.previous)
      | none => return none : Attempt (Option Declaration))
    openScope
    openFunction
    let parts ← outcome (functionParts fuel)
    let free ← closeFunction
    let _ ← closeScope
    match parts with
    | .error n => throw n
    | .ok (params, body) =>
      node (← spanFrom place) (.function · ⟨own, params, body, free⟩)

/-- The parameters and the body of a function. -/
def functionParts : Nat → Attempt (List Declaration × Node)
  | 0 => outOfFuel
  | fuel + 1 => do
    expect .openPar
    let params ← (do
      if ← accept .closePar then return []
      else
        let ps ← parameters fuel
        expect .closePar
        return ps : Attempt (List Declaration))
    let place ← here
    expect .openCurly
    let body ← block fuel place
    if ← hasFailed then throw body
    else return (params, body)

/-- One or more parameters with commas between them. -/
def parameters : Nat → Attempt (List Declaration)
  | 0 => outOfFuel
  | fuel + 1 => do
    let place ← here
    let s ← takeNameOr "parameter name"
    let d ← declare s place
    if ← accept .comma then return d :: (← parameters fuel)
    else return [d]

def returnStatement : Nat → Location → Attempt Node
  | 0, _ => outOfFuel
  | fuel + 1, place => do
    forward
    match ← kind with
    | .semicolon | .closeCurly | .endOfInput => node (← spanFrom place) (.jump · .return)
    | _ =>
      let v ← valid (← expression fuel 0)
      node (← spanFrom place) (.giveBack · v)

/-- The statements of a block, after its brace. -/
def block : Nat → Location → Reading Node
  | 0, _ => outOfFuel
  | fuel + 1, place => do
    openScope
    let ss ← statements fuel (some .closeCurly)
    let locals ← closeScope
    blockOf (← spanFrom place) ss locals

/-- A statement with the semicolon after it, if there is one. -/
def statement : Nat → Reading Node
  | 0 => outOfFuel
  | fuel + 1 => do
    let n ← expression fuel 0
    let _ ← accept .semicolon
    return n

/-- Statements up to a token of the kind `closing`, which is passed, or to the end of the input. -/
def statements : Nat → Option Token.Kind → Reading (List Node)
  | 0, _ => outOfFuel
  | fuel + 1, closing => do
    if ← hasFailed then return []
    else
      let closed ← (match closing with
        | some k => accept k
        | none => do return (← kind).isEndOfInput : Reading Bool)
      if closed then return []
      else
        let s ← statement fuel
        return s :: (← statements fuel closing)

end

/-! ## Whole sources -/

/-- The tree of all that the cursor has before it. -/
def analyse (fuel : Nat) : Reading Node := do
  modify fun p => { p with failed := false, functions := [] }
  let start ← here
  let global := (← get).scope.options.global
  if !global then openScope
  let top := (← get).scope.depth
  let ss ← statements fuel none
  let failed ← hasFailed
  let ss ← if ss.isEmpty && !failed then (return [← unexpected "expression"]) else pure ss
  modify fun p => { p with scope := p.scope.closeTo top }
  let locals ← if global then pure [] else closeScope
  blockOf (start.extend (← get).cursor.previous) ss locals

/-- Enough fuel to read a source of the given number of tokens. -/
def fuelFor (tokens : Nat) : Nat :=
  16 * (tokens + 4)

/-- Reads a source into one tree. -/
def parse (p : Parser) (source : String) : Node × Parser :=
  let cursor := Cursor.ofSource source
  let fuel := fuelFor cursor.ahead.length
  match (analyse fuel).run { p with cursor } with
  | some r => r
  | none => (.invalid {} "", p)

end Steppable.Parser
