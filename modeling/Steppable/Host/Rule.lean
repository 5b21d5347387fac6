import Steppable.Value.Coercion

/-!
# Rules of a host

A host gives meaning to the names that a script does not declare. It goes by a list of rules about
chains of accessors: `a.b(c)` is the name `a`, then the member `b` of it, then the call. A rule
follows members by name from the innermost accessor outwards and ends at a call, an indexing or a
member; its handler then answers for the accessor reached, and every accessor between takes the same
result. The rules are tried in order until one does not decline.

Arguments are evaluated only when a rule that wants them is reached. Which rules there are is decided
before that, each time a name asks, by what the host remembers then.
-/

namespace Steppable.Host

/-- What a host remembers from one answer to the next. -/
structure Record where
  count : Nat := 0
  log : List String := []
  deriving Repr, DecidableEq, Inhabited

/-- An accessor of a chain with its place on the stack of frames, counted from the outermost one. -/
structure Link where
  position : Nat
  node : Node

/-- What a handler is given: the arguments it asked for and the accessors from the innermost one to
the one reached. -/
structure Request where
  arguments : List Value
  chain : List Link

/-- What a handler answers. -/
inductive Answer where
  /-- This value. -/
  | value (v : Value)
  /-- This value; a function or an error as a new object. -/
  | anew (v : Value)
  /-- An error on the accessor reached. -/
  | fail (message : String)
  /-- An error is left on the accessor reached, but the rules after this one are tried. -/
  | failAndPass (message : String)
  /-- The rules after this one are tried. -/
  | decline

/-- How a chain has to go on after the members of a rule's path. -/
inductive Ending where
  /-- A call; up to `arity` of its arguments are evaluated. -/
  | call (arity : Nat)
  /-- An indexing, whose index is evaluated. -/
  | index
  /-- A member or name, read as it is. -/
  | get (name : String)
  /-- Any accessor; up to that many of its arguments are evaluated, and none are asked for without a
  number. -/
  | any (arity : Option Nat)
  /-- The given name: the accessor reached is the outermost one of the chain. -/
  | outermost (name : String)

structure Rule where
  path : List String
  ending : Ending
  handler : Request → Record → Answer × Record

/-- A request together with the rule whose handler got it. -/
structure Call where
  rule : Rule
  request : Request

namespace Ending

/-- How many arguments the handler asks for, if it asks for arguments. -/
def arity? : Ending → Option Nat
  | call arity => some arity
  | index => some 1
  | any arity => arity
  | get _ | outermost _ => none

/-- How far out the ending reaches on a chain that begins with the accessor it is tested on. -/
def reach? (e : Ending) : List Node → Option Nat
  | [] => none
  | n :: outer =>
    match e, n with
    | .call _, .call .. => some 0
    | .index, .index .. => some 0
    | .get s, n => if n.isNamed s then some 0 else none
    | .any _, _ => some 0
    | .outermost s, n => if n.isNamed s then some outer.length else none
    | _, _ => none

end Ending

/-- How far out a path and an ending reach on a chain of accessors, the innermost first. -/
def reach? (e : Ending) : List String → List Node → Option Nat
  | [], chain => e.reach? chain
  | s :: path, n :: outer => if n.isNamed s then (reach? e path outer).map (· + 1) else none
  | _ :: _, [] => none

/-- How far out a rule reaches on a chain of accessors, the innermost first. -/
def Rule.reach? (r : Rule) (chain : List Node) : Option Nat :=
  Host.reach? r.ending r.path chain

/-- The rule for members of `name`: the path begins with one more step. -/
def Rule.under (name : String) (r : Rule) : Rule :=
  { r with path := name :: r.path }

/-! ## Handlers -/

/-- A handler that only looks at the arguments. -/
def answering (f : List Value → Answer) (q : Request) (r : Record) : Answer × Record :=
  (f q.arguments, r)

/-- Arguments in one line of text: how many, and their texts. -/
def argumentsText (as : List Value) : String :=
  toString as.length ++ ":" ++ joinWith "|" (as.map Value.text)

/-- Counts, and answers the new count. -/
def countUp (_ : Request) (r : Record) : Answer × Record :=
  (.value (.ofNumber (Float.ofNat (r.count + 1))), { r with count := r.count + 1 })

/-- Notes the arguments in the log. -/
def noteArguments (q : Request) (r : Record) : Answer × Record :=
  (.value .undefined, { r with log := r.log ++ [argumentsText q.arguments] })

/-- The item that the first argument numbers, counted from zero. -/
def itemOf (items : List Value) (as : List Value) : Answer :=
  let i : Int := match as with
    | [] => 0
    | a :: _ => a.toInt64
  if i < 0 then .fail "Index out of range."
  else
    match items[i.toNat]? with
    | some v => .anew v
    | none => .fail "Index out of range."

/-- The word for the kind of an accessor. -/
def accessorWord : Node → String
  | .call .. => "call"
  | .index .. => "indexer"
  | _ => "member"

/-- Describes the chain, the innermost accessor first. -/
def describeChain (q : Request) (r : Record) : Answer × Record :=
  let one (l : Link) := toString l.position ++ " " ++ accessorWord l.node ++ " " ++ l.node.text
  (.value (.string (joinWith " ; " (q.chain.map one))), r)

end Steppable.Host

namespace Steppable

/-- A host: what it remembers decides the rules that it goes by. -/
structure Host where
  rules : Host.Record → List Host.Rule

namespace Host

/-- The host that goes by these rules whatever it remembers. -/
@[coe]
def always (rules : List Rule) : Host :=
  ⟨fun _ => rules⟩

instance : Coe (List Rule) Host :=
  ⟨always⟩

/-- The rules of a host are those that it ever goes by. -/
instance : Membership Rule Host :=
  ⟨fun host r => ∃ record, r ∈ host.rules record⟩

theorem mem_of_rules {host : Host} {record : Record} {r : Rule} (h : r ∈ host.rules record) :
    r ∈ host :=
  ⟨record, h⟩

theorem forall_always {rules : List Rule} {P : Rule → Prop} (h : ∀ r ∈ rules, P r) :
    ∀ r ∈ (rules : Host), P r :=
  fun r ⟨_, hr⟩ => h r hr

end Host

end Steppable
