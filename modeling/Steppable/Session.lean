import Steppable.Machine.Run
import Steppable.Parser.Grammar

/-!
# Sessions

A session reads sources with one parser and evaluates them on one machine. With a global scope the
variables of one source are there for the next, which is what an interactive loop wants.
-/

namespace Steppable

structure Session where
  parser : Parser
  machine : Machine

/-- Where the evaluation of a session stands. -/
inductive Session.State where
  | finished
  | pending
  /-- It has ended with an error. -/
  | error
  deriving Repr, DecidableEq

namespace Session

/-- A session under the given rules for declarations, whose nodes get identities from `next` on. -/
def new (options : Scope.Options := {}) (host : Host := Host.standard) (next : Nat := 1) :
    Session :=
  { parser := .new options next, machine := { host } }

def isPending (s : Session) : Bool :=
  s.machine.isPending

/-- Where the evaluation stands. -/
def state (s : Session) : State :=
  if s.isPending then .pending
  else if s.machine.result.any Value.isError then .error
  else .finished

/-- Reads a source and gives cells to the global variables that it adds. -/
def parse (s : Session) (source : String) : Node × Session :=
  let (n, parser) := s.parser.parse source
  (n, { parser, machine := s.machine.declareGlobals parser.scope.globals })

/-- The session after a request to its machine. -/
def lift (s : Session) (r : Except Misuse (Machine × Status)) : Except Misuse Session :=
  r.map fun (machine, _) => { s with machine }

/-- Starts the evaluation of a tree. -/
def executeNode (s : Session) (n : Node) (steps : Nat := Machine.patience) :
    Except Misuse Session :=
  s.lift (s.machine.start n steps)

/-- Reads a source and starts its evaluation. -/
def execute (s : Session) (source : String) (steps : Nat := Machine.patience) :
    Except Misuse Session :=
  if s.isPending then .error .alreadyRunning
  else
    let (n, s) := s.parse source
    s.executeNode n steps

/-- Runs to the next stop or to the end. -/
def resume (s : Session) (steps : Nat := Machine.patience) : Except Misuse Session :=
  s.lift (s.machine.resume steps)

/-- Runs to the next node that evaluation can stop before. -/
def stepIn (s : Session) (steps : Nat := Machine.patience) : Except Misuse Session :=
  s.lift (s.machine.stepIn steps)

/-- Runs through every stop to the end and returns the result. -/
def runToEnd (s : Session) (steps : Nat := Machine.patience) : Value × Session :=
  let machine := if s.isPending then (s.machine.resumeAll steps steps).1 else s.machine
  (machine.result.getD .undefined, { s with machine })

/-- Abandons the evaluation. -/
def reset (s : Session) : Session :=
  { s with machine := s.machine.reset }

/-- Changes the breakpoints. -/
def withBreakpoints (s : Session) (b : Breakpoints) : Session :=
  { s with machine := { s.machine with breakpoints := b } }

end Session

/-- What a script evaluates to. -/
structure Evaluated where
  value : Value
  record : Host.Record
  /-- The next identity that neither the tree nor the values use. -/
  next : Nat

/-- Reads and evaluates a script by itself. Identities are used from `next` on. -/
def evaluateScript (source : String) (host : Host := Host.standard) (next : Nat := 1)
    (steps : Nat := Machine.patience) : Evaluated :=
  let (n, parser) := (Parser.new {} next).parse source
  match Machine.evaluate { host, next := parser.next } n steps with
  | .ok (m, .finished value) => ⟨value, m.record, m.next⟩
  | .ok (m, _) => ⟨.undefined, m.record, m.next⟩
  | .error _ => ⟨.undefined, {}, parser.next⟩

end Steppable
