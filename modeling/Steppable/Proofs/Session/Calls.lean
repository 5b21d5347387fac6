import Steppable.Proofs.Machine.Life
import Steppable.Session

/-!
# Calls in any order

Whether an evaluation is stopped is not kept anywhere: it is when there are frames. So a value that
came back while a frame was left behind, or a stop that left none, would make the next call be
refused, or not be refused, wrongly.

**Theorem (`calls_sound`).** After any calls an evaluation is stopped exactly if the last call that
ran one left it so and there has been no reset since. A call that starts an evaluation is refused
exactly if one is stopped, one that continues it exactly if none is, and a call that is refused has
changed nothing.

For the last point a call is written as what it is: it works on the session step by step, and what
it has changed stays changed, also when it is refused later on (`Call`). The calls do what the
functions of sessions say (`Faithful`).
-/

namespace Steppable

namespace Machine

variable {m m' : Machine} {φ : Focus} {steps stops : Nat} {v : Value}

/-- A run that stops leaves frames behind. -/
theorem isPending_of_suspended (h : run steps m φ = (m', .suspended)) : m'.isPending = true := by
  obtain ⟨k, m₁, φ₁, -, -, hs⟩ := run_eq_suspended h
  obtain ⟨n, -, -, hf⟩ := frames_of_next_begin (m := m₁) (φ := φ₁) (by rw [hs]; rfl)
  rw [hs] at hf
  simp only at hf
  simp [isPending, hf]

/-- A run that ends leaves none, and its result is the result of the machine. -/
theorem isPending_of_finished (h : run steps m φ = (m', .finished v)) :
    m'.isPending = false ∧ m'.result = some v := by
  obtain ⟨k, m₁, φ₁, m₂, w, -, -, hs, hw⟩ := run_eq_finished h
  obtain ⟨rfl, hf, -⟩ := step_finished hs
  have hframes := (settle_frames m₂ w).2.1
  have hresult : (m₂.settle w).2.result = some (m₂.settle w).1 := rfl
  rw [hw] at hframes hresult
  exact ⟨isPending_of_frames (hframes.trans hf), hresult⟩

end Machine

namespace Session

open Machine

/-! ## Calls step by step -/

/-- A call works on the session and answers, or is refused; what it has changed until then stays
changed. -/
abbrev Call := ExceptT Misuse (StateM Session)

/-- The session set to stop before the next node that it can stop before. -/
def alert (s : Session) : Session :=
  { s with machine := { s.machine with stopNext := true } }

namespace Call

variable {α β : Type} {s : Session}

/-- What a call answers on a session, and the session afterwards. -/
def on (c : Call α) (s : Session) : Except Misuse α × Session :=
  (ExceptT.run c).run s

@[simp]
theorem on_pure (a : α) : (pure a : Call α).on s = (.ok a, s) := rfl

@[simp]
theorem on_throw (e : Misuse) : (throw e : Call α).on s = (.error e, s) := rfl

@[simp]
theorem on_get : (get : Call Session).on s = (.ok s, s) := rfl

@[simp]
theorem on_set (s' : Session) : (set s' : Call PUnit).on s = (.ok ⟨⟩, s') := rfl

@[simp]
theorem on_modify (f : Session → Session) : (modify f : Call PUnit).on s = (.ok ⟨⟩, f s) := rfl

/-- What follows a call that is refused is not done. -/
@[simp]
theorem on_bind (c : Call α) (f : α → Call β) :
    (c >>= f).on s =
      match c.on s with
      | (.ok a, s') => (f a).on s'
      | (.error e, s') => (.error e, s') := by
  show (ExceptT.bindCont f (c.on s).1 : StateM Session _).run (c.on s).2 = _
  rcases c.on s with ⟨r, s'⟩
  cases r <;> rfl

@[simp]
theorem on_map (c : Call α) (f : α → β) :
    (f <$> c).on s = ((c.on s).1.map f, (c.on s).2) := by
  show ((c >>= fun a => pure (f a)) : Call β).on s = _
  rw [on_bind]
  rcases c.on s with ⟨r, s'⟩
  cases r <;> rfl

/-- Gives the machine something to do and lets it run. -/
def advance (steps : Nat) (task : Machine → Machine × Focus) : Call Status := do
  let s ← get
  let (m, φ) := task s.machine
  let (m, status) := Machine.run steps m φ
  set { s with machine := m }
  return status

def start (n : Node) (steps : Nat) : Call Status := do
  if (← get).isPending then throw .alreadyRunning
  advance steps fun m => (m.fresh, .enter n)

def read (source : String) : Call Node := do
  let (n, s) := (← get).parse source
  set s
  return n

def execute (source : String) (steps : Nat) : Call Status := do
  if (← get).isPending then throw .alreadyRunning
  start (← read source) steps

def resume (steps : Nat) : Call Status := do
  if !(← get).isPending then throw .notPending
  advance steps Machine.resumption

def stepIn (steps : Nat) : Call Status := do
  if !(← get).isPending then throw .notPending
  modify Session.alert
  resume steps

/-- Resumes through at most `stops` stops. -/
def resumeAll (steps : Nat) : Nat → Call Status
  | 0 => return .exhausted
  | stops + 1 => do
    match ← resume steps with
    | .suspended => resumeAll steps stops
    | status => return status

def runToEnd (steps : Nat) : Call Status := do
  let s ← get
  if s.isPending then resumeAll steps steps
  else return .finished (s.machine.result.getD .undefined)

/-! ## What the calls do -/

variable {n : Node} {steps stops : Nat} {v : Value}

theorem on_advance (task : Machine → Machine × Focus) :
    (advance steps task).on s =
      (.ok (Machine.run steps (task s.machine).1 (task s.machine).2).2,
        { s with machine := (Machine.run steps (task s.machine).1 (task s.machine).2).1 }) :=
  rfl

theorem on_start :
    (start n steps).on s =
      if s.isPending then (.error .alreadyRunning, s)
      else (advance steps fun m => (m.fresh, .enter n)).on s := by
  cases h : s.isPending <;> simp [start, h]

/-- Reading a source leaves it open whether an evaluation is stopped. -/
theorem isPending_parse (source : String) (s : Session) :
    (s.parse source).2.isPending = s.isPending := by
  show Machine.isPending (s.machine.declareGlobals _) = _
  rw [Machine.isPending, (declareGlobals_frames ..).1]
  rfl

theorem on_execute {source : String} :
    (execute source steps).on s =
      if s.isPending then (.error .alreadyRunning, s)
      else (advance steps fun m => (m.fresh, .enter (s.parse source).1)).on (s.parse source).2 := by
  cases h : s.isPending with
  | true => simp [execute, h]
  | false => simp [execute, read, on_start, isPending_parse, h]

theorem on_resume :
    (resume steps).on s =
      if s.isPending then (advance steps Machine.resumption).on s
      else (.error .notPending, s) := by
  cases h : s.isPending <;> simp [resume, h]

theorem on_stepIn :
    (stepIn steps).on s =
      if s.isPending then (resume steps).on s.alert else (.error .notPending, s) := by
  cases h : s.isPending <;> simp [stepIn, h]

theorem on_runToEnd :
    (runToEnd steps).on s =
      if s.isPending then (resumeAll steps steps).on s
      else (.ok (.finished (s.machine.result.getD .undefined)), s) := by
  cases h : s.isPending <;> simp [runToEnd, h]

/-- No stop on the way to the end makes the next call be refused. -/
theorem on_resumeAll (h : s.isPending = true) :
    (resumeAll steps stops).on s =
      (.ok (s.machine.resumeAll steps stops).2,
        { s with machine := (s.machine.resumeAll steps stops).1 }) := by
  induction stops generalizing s with
  | zero => rfl
  | succ stops ih =>
    have hresume : s.machine.resume steps =
        .ok (Machine.run steps s.machine.resumption.1 s.machine.resumption.2) := if_pos h
    rw [resumeAll, Machine.resumeAll, hresume, on_bind, on_resume, if_pos h, on_advance]
    rcases hr : Machine.run steps s.machine.resumption.1 s.machine.resumption.2 with ⟨m, status⟩
    cases status with
    | suspended => exact ih (isPending_of_suspended hr)
    | finished v => rfl
    | exhausted => rfl

/-- What a call makes of a session, if it is not refused. -/
def after (c : Call α) (s : Session) : Except Misuse Session :=
  (c.on s).1.map fun _ => (c.on s).2

theorem start_after : (start n steps).after s = s.executeNode n steps := by
  rw [after, on_start, on_advance]
  cases h : s.isPending with
  | true =>
    have hm : s.machine.isPending = true := h
    simp [executeNode, lift, Machine.start, hm, Except.map]
  | false => simp [executeNode, lift, start_eq h, Except.map]

theorem execute_after {source : String} :
    (execute source steps).after s = s.execute source steps := by
  cases h : s.isPending with
  | true => simp [after, on_execute, Session.execute, h, Except.map]
  | false =>
    have hp : (s.parse source).2.isPending = false := (isPending_parse source s).trans h
    have hstart : (start (s.parse source).1 steps).after (s.parse source).2 =
        (s.parse source).2.executeNode (s.parse source).1 steps := start_after
    rw [after, on_start, if_neg (by simp [hp])] at hstart
    rw [after, on_execute, Session.execute, if_neg (by simp [h]), if_neg (by simp [h])]
    exact hstart

theorem resume_after : (resume steps).after s = s.resume steps := by
  rw [after, on_resume, on_advance, Session.resume, Machine.resume]
  cases h : s.isPending with
  | true =>
    have hm : s.machine.isPending = true := h
    simp [lift, hm, Except.map]
  | false =>
    have hm : s.machine.isPending = false := h
    simp [lift, hm, Except.map]

theorem stepIn_after : (stepIn steps).after s = s.stepIn steps := by
  cases h : s.isPending with
  | true =>
    have hm : s.machine.isPending = true := h
    rw [after, on_stepIn, if_pos h, Session.stepIn, Machine.stepIn, if_pos hm]
    exact resume_after
  | false =>
    have hm : s.machine.isPending = false := h
    simp [after, on_stepIn, h, Session.stepIn, Machine.stepIn, hm, lift, Except.map]

theorem runToEnd_after : (runToEnd steps).after s = .ok (s.runToEnd steps).2 := by
  rw [after, on_runToEnd, Session.runToEnd]
  cases h : s.isPending with
  | true =>
    rw [if_pos rfl, on_resumeAll h]
    rfl
  | false => rfl

/-- A run through every stop does not end in one, and its result is the result of the machine. -/
theorem status_of_resumeAll {m m' : Machine} {status : Status} (hm : m.isPending = true)
    (h : m.resumeAll steps stops = (m', status)) :
    status = .exhausted ∨
      ∃ v, status = .finished v ∧ m'.isPending = false ∧ m'.result = some v := by
  induction stops generalizing m with
  | zero =>
    cases h
    exact .inl rfl
  | succ stops ih =>
    rw [Machine.resumeAll, Machine.resume, if_pos hm] at h
    rcases hr : Machine.run steps m.resumption.1 m.resumption.2 with ⟨m₁, status₁⟩
    simp only [hr] at h
    cases status₁ with
    | suspended => exact ih (isPending_of_suspended hr) h
    | finished w =>
      cases h
      exact .inr ⟨w, rfl, isPending_of_finished hr⟩
    | exhausted =>
      cases h
      exact .inl rfl

/-- A run to the end that returns gives what the function of sessions gives. -/
theorem runToEnd_value {s' : Session} (h : (runToEnd steps).on s = (.ok (.finished v), s')) :
    s.runToEnd steps = (v, s') := by
  cases hp : s.isPending with
  | true =>
    rcases hr : s.machine.resumeAll steps steps with ⟨m', status⟩
    rw [on_runToEnd, if_pos hp, on_resumeAll hp, hr] at h
    cases h
    obtain h | ⟨w, h, -, hresult⟩ := status_of_resumeAll hp hr
    · cases h
    · cases h
      simp [Session.runToEnd, hp, hr, hresult]
  | false =>
    rw [on_runToEnd, if_neg (by simp [hp])] at h
    cases h
    simp [Session.runToEnd, hp]

/-! ## Refusals and stops -/

/-- What a call on `s` answers about where the evaluation stands is so, and if it is refused,
nothing has changed. -/
def Honest (s : Session) : Except Misuse Status × Session → Prop
  | (.ok .suspended, s') => s'.isPending = true
  | (.ok (.finished _), s') => s'.isPending = false
  | (.ok .exhausted, _) => True
  | (.error _, s') => s' = s

theorem honest_advance (s₀ : Session) (task : Machine → Machine × Focus) :
    Honest s₀ ((advance steps task).on s) := by
  rcases hr : Machine.run steps (task s.machine).1 (task s.machine).2 with ⟨m', status⟩
  rw [on_advance, hr]
  cases status with
  | finished v => exact (isPending_of_finished hr).1
  | suspended => exact isPending_of_suspended hr
  | exhausted => trivial

theorem honest_start (n : Node) (steps : Nat) (s : Session) : Honest s ((start n steps).on s) := by
  rw [on_start]
  split
  · rfl
  · exact honest_advance s _

theorem honest_execute (source : String) (steps : Nat) (s : Session) :
    Honest s ((execute source steps).on s) := by
  rw [on_execute]
  split
  · rfl
  · exact honest_advance s _

theorem honest_resume (steps : Nat) (s : Session) : Honest s ((resume steps).on s) := by
  rw [on_resume]
  split
  · exact honest_advance s _
  · rfl

theorem honest_stepIn (steps : Nat) (s : Session) : Honest s ((stepIn steps).on s) := by
  rw [on_stepIn]
  split
  · rename_i hp
    have hp' : s.alert.isPending = true := hp
    rw [on_resume, if_pos hp']
    exact honest_advance s _
  · rfl

theorem honest_runToEnd (steps : Nat) (s : Session) : Honest s ((runToEnd steps).on s) := by
  rw [on_runToEnd]
  split
  · rename_i hp
    rcases hr : s.machine.resumeAll steps steps with ⟨m', status⟩
    rw [on_resumeAll hp, hr]
    obtain rfl | ⟨v, rfl, hm, -⟩ := status_of_resumeAll hp hr
    · trivial
    · exact hm
  · rename_i hp
    exact Bool.eq_false_iff.mpr hp

end Call

/-! ## Histories -/

/-- What can be asked of a session. -/
inductive Request where
  | parse (source : String)
  | execute (source : String) (steps : Nat)
  | executeNode (n : Node) (steps : Nat)
  | resume (steps : Nat)
  | stepIn (steps : Nat)
  | runToEnd (steps : Nat)
  | reset
  | breakpoints (b : Breakpoints)

namespace Request

/-- The call of a request. A request that runs nothing has no status. -/
def call : Request → Call (Option Status)
  | parse source => do
    let _ ← Call.read source
    return none
  | execute source steps => some <$> Call.execute source steps
  | executeNode n steps => some <$> Call.start n steps
  | resume steps => some <$> Call.resume steps
  | stepIn steps => some <$> Call.stepIn steps
  | runToEnd steps => some <$> Call.runToEnd steps
  | reset => do
    modify Session.reset
    return none
  | breakpoints b => do
    modify (·.withBreakpoints b)
    return none

/-- Why a request is refused, by whether an evaluation is stopped. -/
def refusal? (pending : Bool) : Request → Option Misuse
  | execute .. | executeNode .. => if pending then some .alreadyRunning else none
  | resume _ | stepIn _ => if pending then none else some .notPending
  | parse _ | runToEnd _ | reset | breakpoints _ => none

end Request

/-- The requests that were made and what was answered, the latest first. -/
abbrev History := List (Request × Except Misuse (Option Status))

/-- Whether the last call that ran an evaluation left it stopped, and there was no reset since. -/
def History.leftStopped : History → Bool
  | [] => false
  | (_, .ok (some .suspended)) :: _ => true
  | (_, .ok (some _)) :: _ | (.reset, _) :: _ => false
  | _ :: earlier => leftStopped earlier

/-- Makes one more request; a call that does not return has no answer. -/
def perform : History × Session → Request → Option (History × Session)
  | (history, s), r =>
    match r.call.on s with
    | (.ok (some .exhausted), _) => none
    | (answer, s) => some ((r, answer) :: history, s)

/-- Makes requests one after the other. -/
def performAll (s : Session) (rs : List Request) : Option (History × Session) :=
  rs.foldlM perform ([], s)

/-- The calls do on `s` what the functions of sessions say. -/
structure Faithful (s : Session) : Prop where
  start : ∀ n steps, (Call.start n steps).after s = s.executeNode n steps
  execute : ∀ source steps, (Call.execute source steps).after s = s.execute source steps
  resume : ∀ steps, (Call.resume steps).after s = s.resume steps
  stepIn : ∀ steps, (Call.stepIn steps).after s = s.stepIn steps
  runToEnd : ∀ steps, (Call.runToEnd steps).after s = .ok (s.runToEnd steps).2
  value : ∀ steps v s', (Call.runToEnd steps).on s = (.ok (.finished v), s') →
    s.runToEnd steps = (v, s')

theorem faithful (s : Session) : Faithful s where
  start _ _ := Call.start_after
  execute _ _ := Call.execute_after
  resume _ := Call.resume_after
  stepIn _ := Call.stepIn_after
  runToEnd _ := Call.runToEnd_after
  value _ _ _ := Call.runToEnd_value

/-- An evaluation is stopped exactly if the history says so, and this alone decides which requests
are refused; those change nothing. -/
structure Sound (history : History) (s : Session) : Prop where
  pending : s.isPending = true ↔ history.leftStopped = true
  refused : ∀ (r : Request) (e : Misuse) (s' : Session),
    r.call.on s = (.error e, s') ↔ r.refusal? s.isPending = some e ∧ s' = s
  faithful : Faithful s

theorem call_refused (r : Request) (s : Session) (e : Misuse) (s' : Session) :
    r.call.on s = (.error e, s') ↔ r.refusal? s.isPending = some e ∧ s' = s := by
  have halert : s.alert.isPending = s.isPending := rfl
  cases h : s.isPending <;> cases r <;>
    simp [Request.call, Request.refusal?, Call.on_execute, Call.on_start, Call.on_resume,
      Call.on_stepIn, Call.on_runToEnd, Call.on_resumeAll, Call.on_advance, Call.read, h, halert,
      Except.map, eq_comm]

variable {r : Request} {s s' : Session} {history : History} {a : Except Misuse (Option Status)}

/-- An answer of an honest call is all that the history needs. -/
theorem leftStopped_of_honest {c : Call Status} (hc : Call.Honest s (c.on s))
    (h : (some <$> c).on s = (a, s')) (hr : r ≠ .reset) (ha : a ≠ .ok (some .exhausted))
    (hs : s.isPending = history.leftStopped) :
    s'.isPending = History.leftStopped ((r, a) :: history) := by
  rw [Call.on_map] at h
  rcases hcall : c.on s with ⟨answer, s₁⟩
  rw [hcall] at h hc
  cases h
  cases answer with
  | ok status =>
    cases status with
    | finished v => exact hc
    | suspended => exact hc
    | exhausted => exact (ha rfl).elim
  | error e =>
    obtain rfl : s₁ = s := hc
    cases r with
    | reset => exact (hr rfl).elim
    | _ => exact hs

theorem isPending_reset (s : Session) : s.reset.isPending = false := by
  simp [Session.reset, Machine.reset, Session.isPending, Machine.isPending]

/-- **One call.** The history stays right about whether an evaluation is stopped. -/
theorem leftStopped_of_call (h : r.call.on s = (a, s')) (ha : a ≠ .ok (some .exhausted))
    (hs : s.isPending = history.leftStopped) :
    s'.isPending = History.leftStopped ((r, a) :: history) := by
  cases r with
  | execute source steps =>
    exact leftStopped_of_honest (Call.honest_execute source steps s) h nofun ha hs
  | executeNode n steps =>
    exact leftStopped_of_honest (Call.honest_start n steps s) h nofun ha hs
  | resume steps => exact leftStopped_of_honest (Call.honest_resume steps s) h nofun ha hs
  | stepIn steps => exact leftStopped_of_honest (Call.honest_stepIn steps s) h nofun ha hs
  | runToEnd steps => exact leftStopped_of_honest (Call.honest_runToEnd steps s) h nofun ha hs
  | parse source =>
    cases h
    exact (Call.isPending_parse source s).trans hs
  | reset =>
    cases h
    exact isPending_reset s
  | breakpoints b =>
    cases h
    exact hs

theorem perform_eq_some {next : History × Session} (h : perform (history, s) r = some next) :
    ∃ a s', r.call.on s = (a, s') ∧ a ≠ .ok (some .exhausted) ∧ next = ((r, a) :: history, s') := by
  rcases hcall : r.call.on s with ⟨a, s'⟩
  rw [perform, hcall] at h
  split at h
  · cases h
  · rename_i hexhausted heq
    cases heq
    cases h
    exact ⟨_, _, rfl, hexhausted, rfl⟩

/-- **Any calls.** -/
theorem leftStopped_of_calls {first last : History × Session} {rs : List Request}
    (h : rs.foldlM perform first = some last)
    (hfirst : first.2.isPending = first.1.leftStopped) :
    last.2.isPending = last.1.leftStopped := by
  induction rs generalizing first with
  | nil =>
    cases h
    exact hfirst
  | cons r rs ih =>
    rw [List.foldlM_cons] at h
    obtain ⟨next, hnext, h⟩ := Option.bind_eq_some_iff.mp h
    obtain ⟨a, s', hcall, ha, rfl⟩ := perform_eq_some hnext
    exact ih h (leftStopped_of_call hcall ha hfirst)

/-- **The calls of a session are a sound state machine.** -/
theorem calls_sound {options : Scope.Options} {host : Host} {next : Nat}
    {rs : List Request} {last : History × Session}
    (h : (new options host next).performAll rs = some last) : Sound last.1 last.2 where
  pending := Bool.eq_iff_iff.mp (leftStopped_of_calls h rfl)
  refused r e s' := call_refused r last.2 e s'
  faithful := faithful last.2

/-- The second source is refused, because the evaluation of the first one is stopped. -/
theorem calls_sound_when_stopped :
    let last := ((new {}).performAll
      [.breakpoints { always := true }, .execute "1 + 2" 100, .execute "3" 100]).get
        (by decide +kernel)
    Sound last.1 last.2 ∧ last.1.leftStopped = true := by
  intro last
  exact ⟨calls_sound (Option.some_get _).symm, by decide +kernel⟩

end Session

end Steppable
