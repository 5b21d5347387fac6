import Steppable.Machine.Step

/-!
# Running a machine

An evaluation is started on a node and runs until it ends or stops before a node with a breakpoint;
then it can be resumed or abandoned. Running is counted in steps: a run that has used up its steps
is exhausted, which is neither an end nor a stop.
-/

namespace Steppable

/-- Why a request to a machine is refused. -/
inductive Misuse where
  | alreadyRunning
  | notPending
  deriving Repr, DecidableEq

def Misuse.message : Misuse → String
  | alreadyRunning => "an evaluation is already in progress: continue or reset it first"
  | notPending => "no evaluation is pending"

/-- How a run ends. -/
inductive Status where
  | finished (v : Value)
  | suspended
  /-- The steps allowed did not suffice. -/
  | exhausted

namespace Machine

/-- More steps than any evaluation takes that is waited for. -/
def patience : Nat := 1000000000000000

/-- Whether an evaluation is under way. -/
def isPending (m : Machine) : Bool :=
  !m.frames.isEmpty

/-- Ends an evaluation whose root gave `v`: `return` gives its value, another signal is an error,
and a variable is read. -/
def settle (m : Machine) (v : Value) : Value × Machine :=
  let (v, m) := match v with
    | .signal .return _ value => (value, m)
    | .signal _ culprit _ => m.fault culprit illegalJump
    | v => (m.cells.deref v, m)
  (v, { m with result := some v })

/-- Runs for at most `steps` steps. -/
def run : Nat → Machine → Focus → Machine × Status
  | 0, m, _ => (m, .exhausted)
  | steps + 1, m, focus =>
    match m.step focus with
    | (m, .running focus) => run steps m focus
    | (m, .suspended) => (m, .suspended)
    | (m, .finished v) =>
      let (v, m) := m.settle v
      (m, .finished v)

/-- Starts the evaluation of a node. -/
def start (m : Machine) (n : Node) (steps : Nat := patience) : Except Misuse (Machine × Status) :=
  if m.isPending then .error .alreadyRunning
  else .ok (run steps { m with result := none, lastFault := none, stopNext := false } (.enter n))

/-- Takes up the top frame `f` of a suspended evaluation. A frame that has a result ends with it. A
name asks the host anew, from the first rule on, for it may go by other rules by now; the
arguments that it has gathered are kept. Every other frame waits on. -/
def takeUp (m : Machine) (f : Frame) : Machine × Progress :=
  match f.result, f.phase, f.node with
  | some v, _, _ => m.finish v
  | none, .asking .., .name .. => consult f.node m.rules m
  | none, _, _ => (m, .running .begin)

/-- Takes up the frames `inner`, the outermost first, above those of the machine. A frame that ends
takes all the frames inside it along, and its value is the next one; if every frame waits on, the
top frame begins.

Under a host that stands by its answers no frame ends here (`Machine.resumption_eq_of_calm`). Where
one does, an argument of an accessor further out may have been in evaluation inside it; then that
evaluation is given up, and the accessor still lacks the argument. -/
def takeUpAll : List Frame → Machine → Machine × Focus
  | [], m => (m, .begin)
  | f :: inner, m =>
    match { m with frames := f :: m.frames }.takeUp f with
    | (m, .running (.give v)) => ({ m with cells := m.cells.unwind inner.reverse }, .give v)
    | (m, _) => takeUpAll inner m

/-- Where a suspended evaluation goes on. -/
def resumption (m : Machine) : Machine × Focus :=
  takeUpAll m.frames.reverse { m with frames := [] }

/-- Resumes a suspended evaluation. -/
def resume (m : Machine) (steps : Nat := patience) : Except Misuse (Machine × Status) :=
  if m.isPending then
    let (m, focus) := m.resumption
    .ok (run steps m focus)
  else .error .notPending

/-- Resumes a suspended evaluation up to the next node that it can stop before. -/
def stepIn (m : Machine) (steps : Nat := patience) : Except Misuse (Machine × Status) :=
  if m.isPending then { m with stopNext := true }.resume steps else .error .notPending

/-- Abandons a suspended evaluation. -/
def reset (m : Machine) : Machine :=
  { m with frames := [], cells := m.cells.unwind m.frames, stopNext := false }

/-- Resumes until the evaluation ends, through at most `stops` stops. -/
def resumeAll (steps : Nat) : Nat → Machine → Machine × Status
  | 0, m => (m, .exhausted)
  | stops + 1, m =>
    match m.resume steps with
    | .ok (m, .suspended) => resumeAll steps stops m
    | .ok r => r
    | .error _ => (m, .finished (m.result.getD .undefined))

/-- Evaluates a node to the end, through every stop. -/
def evaluate (m : Machine) (n : Node) (steps : Nat := patience) :
    Except Misuse (Machine × Status) :=
  (m.start n steps).map fun
    | (m, .suspended) => resumeAll steps steps m
    | r => r

/-- Gives a cell to every declaration that has none yet; such variables last as long as the machine.
-/
def declareGlobals (m : Machine) (ds : List Declaration) : Machine :=
  ds.foldl (fun m d =>
    if m.globals.contains d.id then m
    else { m with globals := d.id :: m.globals, cells := (m.cells.register d).2 }) m

/-- The nodes of the frames, the outermost first. -/
def stack (m : Machine) : List Node :=
  (m.frames.map Frame.node).reverse

/-- The node that a suspended evaluation stands before. -/
def current? (m : Machine) : Option Node :=
  m.frames.head?.map Frame.node

end Machine

end Steppable
