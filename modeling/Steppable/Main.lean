import Steppable.Console.Arguments

/-!
# The program

Reads the arguments, the script file or the lines typed, and writes what the pure modules answer.
-/

namespace Steppable.Console

def write (output : Output) : IO Unit := do
  IO.print output.out
  output.err.forM IO.eprintln
  (← IO.getStdout).flush

/-- Reads and runs lines until one ends the loop or there are no more. -/
partial def interactLoop (settings : Settings) (s : Session) : IO Unit := do
  write { out := prompt }
  let line ← (← IO.getStdin).getLine
  if line.isEmpty then write { out := "\n" }
  else
    let (output, next) := interactLine settings s line
    write output
    match next with
    | some s => interactLoop settings s
    | none => return ()

/-- What is found under the name of a file. -/
def readFile (name : String) : IO File := do
  try return .script (← IO.FS.readFile name)
  catch
    | .noFileOrDirectory .. => return .missing
    | e => return .unreadable (toString e)

end Steppable.Console

open Steppable.Console in
def main (args : List String) : IO UInt32 := do
  match Arguments.command args with
  | .error stop => finish (stopped stop)
  | .ok (.evaluate source settings) => finish (exitOf (runScript source noFile settings))
  | .ok (.runFile name settings) => finish (runFile name settings (← readFile name))
  | .ok (.interact settings) =>
    write { out := banner }
    interactLoop settings (interactiveSession settings)
    return 0
where
  finish (r : Nat × Output) : IO UInt32 := do
    write r.2
    if r.1 == 2 then IO.eprintln "error: the arguments are not understood; try --help"
    return UInt32.ofNat r.1
