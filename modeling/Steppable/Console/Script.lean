import Steppable.Diagnostic
import Steppable.Session

/-!
# Running scripts from a console

What running a source prints: the value of the script, or the reports of its errors. With stepping
on, every node that evaluation stops before is printed on the way.
-/

namespace Steppable.Console

/-- What has been written to the two output streams. -/
structure Output where
  out : String := ""
  /-- The lines of the reports. -/
  err : List String := []
  deriving Repr, DecidableEq

def Output.append (a b : Output) : Output :=
  ⟨a.out ++ b.out, a.err ++ b.err⟩

instance : Append Output := ⟨Output.append⟩

/-- How sources are run. -/
structure Settings where
  scope : Scope.Options := {}
  /-- Stop before every node that evaluation can stop before, and print it. -/
  step : Bool := false
  deriving Repr, DecidableEq

/-- The name that reports use for a source without a file. -/
def noFile : String := "<repl>"

/-- A node with its place, as it is printed while stepping. -/
def stopLine (n : Node) : String :=
  "[" ++ n.place.text ++ "] " ++ n.text ++ "\n"

/-- Resumes until the evaluation ends, through at most `stops` stops, and prints the node of each.
-/
def continueAll (steps : Nat) : Nat → Session → Output × Session
  | 0, s => ({}, s)
  | stops + 1, s =>
    if s.isPending then
      let line : Output := { out := (s.machine.current?.map stopLine).getD "" }
      match s.resume steps with
      | .ok s =>
        let (output, s) := continueAll steps stops s
        (line ++ output, s)
      | .error e => (line ++ { err := ["Error: " ++ e.message] }, s.reset)
    else ({}, s)

/-- What is printed for the result of an evaluation, and whether it is a success. -/
def reportResult (source name : String) : Option Value → Bool × Output
  | some (.error f) => (false, { err := (Diagnostic.ofFault f).lines source name })
  | some v => (true, { out := v.text ++ "\n" })
  | none => (true, {})

/-- Runs a source in a session: whether it succeeded, what it printed, and the session after it. -/
def runIn (s : Session) (source name : String) (step : Bool) (steps : Nat := Machine.patience) :
    Bool × Output × Session :=
  let (n, s) := s.parse source
  match Diagnostic.ofTree n with
  | [] =>
    let s := s.withBreakpoints { s.machine.breakpoints with always := step }
    match s.executeNode n steps with
    | .error e => (false, { err := ["Error: " ++ e.message] }, s)
    | .ok s =>
      let (stops, s) := continueAll steps steps s
      let (ok, output) := reportResult source name s.machine.result
      (ok, stops ++ output, s)
  | ds => (false, { err := ds.flatMap (·.lines source name) }, s)

/-- Runs a whole script by itself. -/
def runScript (source name : String) (settings : Settings) : Bool × Output :=
  let (ok, output, _) := runIn (.new settings.scope) source name settings.step
  (ok, output)

end Steppable.Console
