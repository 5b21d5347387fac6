import Steppable.Console.Script

/-!
# The interactive loop

Lines are read and run one after the other in one session with a global scope, so that a variable of
one line is there in the next.
-/

namespace Steppable.Console

def banner : String :=
  "stepjs 0.1.0\nType 'exit' or press Ctrl+D to quit\n\n"

def prompt : String := "> "

def farewell : String := "Goodbye!\n"

/-- The session that the loop begins with. -/
def interactiveSession (settings : Settings) : Session :=
  .new { settings.scope with global := true }

/-- What one line does: what is printed, and the session to go on with unless the line ends the
loop. -/
def interactLine (settings : Settings) (s : Session) (line : String) : Output × Option Session :=
  let line := Text.trim line
  if line.isEmpty then ({}, some s)
  else if line == "exit" || line == "quit" then ({ out := farewell }, none)
  else
    let (_, output, s) := runIn s line noFile settings.step
    (output, some s)

/-- What the given lines print, each after a prompt. -/
def interactLines (settings : Settings) : Session → List String → Output
  | _, [] => { out := prompt ++ "\n" }
  | s, line :: rest =>
    match interactLine settings s line with
    | (output, some s) => { out := prompt } ++ output ++ interactLines settings s rest
    | (output, none) => { out := prompt } ++ output

/-- The lines of an input. What follows the last line feed is a line unless it is empty. -/
def inputLines (input : String) : List String :=
  let ls := input.splitOn "\n"
  if ls.getLast? == some "" then ls.dropLast else ls

/-- The whole loop on a given input. -/
def interact (settings : Settings) (input : String) : Output :=
  { out := banner } ++ interactLines settings (interactiveSession settings) (inputLines input)

end Steppable.Console
