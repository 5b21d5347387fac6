import Steppable.Console.Interactive

/-!
# The command line

Options begin with dashes and may stand anywhere; `--` ends them. The one operand is a script file,
and `-e` gives the script itself, so the two exclude each other. An option may not be repeated.
-/

namespace Steppable.Console

/-- What the arguments have said so far. -/
structure Arguments where
  file : Option String := none
  source : Option String := none
  interactive : Bool := false
  step : Bool := false
  noMasking : Bool := false
  allowRedefinition : Bool := false
  deriving Repr, DecidableEq

/-- Why the arguments do not start a script. -/
inductive Arguments.Stop where
  /-- They break the rules for arguments. -/
  | usage
  | help
  | version
  deriving Repr, DecidableEq

/-- What the arguments ask for. -/
inductive Command where
  | evaluate (source : String) (settings : Settings)
  | runFile (name : String) (settings : Settings)
  | interact (settings : Settings)
  deriving Repr, DecidableEq

namespace Arguments

/-- An option without a value. -/
def setFlag (a : Arguments) : String → Except Stop Arguments
  | "interactive" => if a.interactive then .error .usage else .ok { a with interactive := true }
  | "step" => if a.step then .error .usage else .ok { a with step := true }
  | "no-masking" => if a.noMasking then .error .usage else .ok { a with noMasking := true }
  | "allow-redefinition" =>
    if a.allowRedefinition then .error .usage else .ok { a with allowRedefinition := true }
  | "help" => .error .help
  | "version" => .error .version
  | _ => .error .usage

def setSource (a : Arguments) (source : String) : Except Stop Arguments :=
  if a.source.isSome then .error .usage else .ok { a with source := some source }

def setFile (a : Arguments) (name : String) : Except Stop Arguments :=
  if a.file.isSome || name.isEmpty then .error .usage else .ok { a with file := some name }

/-- What an argument turns out to need. -/
inductive Need where
  | nothing (a : Arguments)
  /-- The next argument is the script. -/
  | script (a : Arguments)

/-- The letters after a single dash. -/
def letters (a : Arguments) : List Char → Except Stop Need
  | [] => .ok (.nothing a)
  | 'e' :: [] => .ok (.script a)
  | 'e' :: '=' :: value => (a.setSource (String.ofList value)).map .nothing
  | 'e' :: value => (a.setSource (String.ofList value)).map .nothing
  | 'i' :: rest => do letters (← a.setFlag "interactive") rest
  | 'h' :: _ => .error .help
  | 'V' :: _ => .error .version
  | _ :: _ => .error .usage

/-- The characters after two dashes. -/
def word (a : Arguments) (cs : List Char) : Except Stop Need :=
  let name := String.ofList (cs.takeWhile (· != '='))
  match cs.dropWhile (· != '=') with
  | [] => if name == "eval" then .ok (.script a) else (a.setFlag name).map .nothing
  | _ :: value =>
    if name == "eval" then (a.setSource (String.ofList value)).map .nothing else .error .usage

/-- One argument before a `--`. -/
def take (a : Arguments) (arg : String) : Except Stop Need :=
  match arg.toList with
  | '-' :: '-' :: cs => a.word cs
  | '-' :: c :: cs => a.letters (c :: cs)
  | _ => (a.setFile arg).map .nothing

/-- Whether an argument is taken for an option, and so cannot be the value of one. -/
def looksLikeOption (arg : String) : Bool :=
  match arg.toList with
  | '-' :: _ :: _ => true
  | _ => false

/-- Reads the arguments that follow those already in `a`. -/
def read (a : Arguments) : List String → Except Stop Arguments
  | [] => .ok a
  | "--" :: rest => rest.foldlM setFile a
  | arg :: rest =>
    match a.take arg with
    | .error stop => .error stop
    | .ok (.nothing a) => a.read rest
    | .ok (.script a) =>
      match rest with
      | [] => .error .usage
      | source :: rest =>
        if looksLikeOption source then .error .usage
        else
          match a.setSource source with
          | .error stop => .error stop
          | .ok a => a.read rest

/-- The settings that the options ask for. -/
def settings (a : Arguments) : Settings :=
  { scope := { masking := !a.noMasking, redefinition := a.allowRedefinition }, step := a.step }

/-- What the arguments ask for. -/
def command (args : List String) : Except Stop Command := do
  let a ← ({} : Arguments).read args
  match a.source, a.file with
  | some _, some _ => throw .usage
  | some source, none => return .evaluate source a.settings
  | none, some name =>
    return if a.interactive then .interact a.settings else .runFile name a.settings
  | none, none => return .interact a.settings

end Arguments

/-- What is printed for `--version`. -/
def versionText : String := "stepjs 0.1.0\n"

/-- What is printed for `--help`. -/
def helpText : String :=
  "Usage: stepjs [OPTIONS] [FILE]\n\n" ++
  "  -i, --interactive         Start in interactive mode\n" ++
  "  -e, --eval <SOURCE>       Evaluate a snippet instead of a file\n" ++
  "      --step                Suspend before every breakable node and print it\n" ++
  "      --no-masking          Refuse declarations that shadow an outer one\n" ++
  "      --allow-redefinition  Accept a second declaration of a name in the same scope\n" ++
  "  -h, --help                Print help\n" ++
  "  -V, --version             Print version\n"

/-- What is found under the name of a file. -/
inductive File where
  | script (source : String)
  | missing
  /-- There is something, but it cannot be read. -/
  | unreadable (reason : String)
  deriving Repr, DecidableEq

def fileNotFound (name : String) : String :=
  "Error: File '" ++ name ++ "' not found"

def fileUnreadable (name reason : String) : String :=
  "Error reading file '" ++ name ++ "': " ++ reason

/-- The exit code and the output of a script that has run. -/
def exitOf : Bool × Output → Nat × Output
  | (ok, output) => (if ok then 0 else 1, output)

/-- Runs the script of a file, if there is one. -/
def runFile (name : String) (settings : Settings) : File → Nat × Output
  | .script source => exitOf (runScript source name settings)
  | .missing => (1, { err := [fileNotFound name] })
  | .unreadable reason => (1, { err := [fileUnreadable name reason] })

/-- The exit code and the output when nothing is run. -/
def stopped : Arguments.Stop → Nat × Output
  | .usage => (2, {})
  | .help => (0, { out := helpText })
  | .version => (0, { out := versionText })

/-- The whole program on the given arguments, files and input: the exit code and the output. -/
def runProgram (args : List String) (file : String → File) (input : String) :
    Nat × Output :=
  match Arguments.command args with
  | .error stop => stopped stop
  | .ok (.evaluate source settings) => exitOf (runScript source noFile settings)
  | .ok (.runFile name settings) => runFile name settings (file name)
  | .ok (.interact settings) => (0, interact settings input)

end Steppable.Console
