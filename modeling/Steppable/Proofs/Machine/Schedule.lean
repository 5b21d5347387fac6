import Steppable.Proofs.Machine.Reaction

/-!
# Schedules

A stopped evaluation is continued by calls, each under breakpoints of its own and either up to the
next breakpoint or up to the next node that it can stop before. A schedule is a list of such calls.

What every step preserves, what taking up a stopped evaluation preserves and what does not depend
on where evaluation stops holds wherever a schedule leads (`Lasting.drive`).
-/

namespace Steppable

/-- A call that continues a stopped evaluation. -/
structure Command where
  /-- The breakpoints from now on. -/
  breakpoints : Breakpoints := {}
  /-- Stop before the next node that evaluation can stop before, whatever the breakpoints. -/
  into : Bool := false
  /-- The steps that the call may take. -/
  steps : Nat := Machine.patience

namespace Machine

variable {m m' : Machine} {φ : Focus} {s : Status} {n : Node} {k : Nat}

/-- Changes where evaluation stops. -/
def withStops (m : Machine) (b : Breakpoints) (stopNext : Bool) : Machine :=
  { m with breakpoints := b, stopNext }

/-- Continues a stopped evaluation. -/
def obey (m : Machine) (c : Command) : Except Misuse (Machine × Status) :=
  let m := { m with breakpoints := c.breakpoints }
  if c.into then m.stepIn c.steps else m.resume c.steps

/-- Continues an evaluation as the commands say, as long as it is stopped. -/
def drive : List Command → Machine × Status → Machine × Status
  | c :: cs, (m, .suspended) =>
    match m.obey c with
    | .ok r => drive cs r
    | .error _ => (m, .suspended)
  | _, r => r

/-- A call takes up the evaluation and runs it under its own breakpoints. -/
theorem obey_eq_ok {c : Command} {r : Machine × Status} (h : m.obey c = .ok r) :
    ∃ m₁, (m₁ = m.withStops c.breakpoints true ∨ m₁ = m.withStops c.breakpoints m.stopNext) ∧
      r = run c.steps m₁.resumption.1 m₁.resumption.2 := by
  unfold obey at h
  dsimp only at h
  split at h
  · refine ⟨_, .inl rfl, ?_⟩
    unfold stepIn resume at h
    split at h
    · split at h
      · exact (Except.ok.inj h).symm
      · simp at h
    · simp at h
  · refine ⟨_, .inr rfl, ?_⟩
    unfold resume at h
    split at h
    · exact (Except.ok.inj h).symm
    · simp at h

/-- A machine that is not idle obeys every command. -/
theorem obey_of_isPending (c : Command) (h : m.isPending = true) :
    m.obey c = .ok (run c.steps
      (m.withStops c.breakpoints (c.into || m.stopNext)).resumption.1
      (m.withStops c.breakpoints (c.into || m.stopNext)).resumption.2) := by
  unfold obey
  dsimp only
  cases hi : c.into with
  | true =>
    have h' : isPending { m with breakpoints := c.breakpoints } = true := h
    have h'' : isPending { m with breakpoints := c.breakpoints, stopNext := true } = true := h
    simp only [stepIn, resume, h', h'', if_true, Bool.true_or]
    rfl
  | false =>
    have h' : isPending { m with breakpoints := c.breakpoints } = true := h
    simp only [resume, h', Bool.false_or, Bool.false_eq_true, if_false, if_true]
    rfl

/-! ## What lasts through a schedule -/

/-- What no step, no taking up and no change of the breakpoints can break. -/
structure Lasting (I : Machine → Focus → Prop) : Prop where
  step : ∀ m φ φ', I m φ → (m.step φ).2.next? = some φ' → I (m.step φ).1 φ'
  resumption : ∀ m, I m .begin → I m.resumption.1 m.resumption.2
  stops : ∀ m φ b stopNext, I m φ → I (m.withStops b stopNext) φ

/-- What is known when a call has returned: the invariant holds where the evaluation has stopped, or
held just before it ended. -/
def Returns (I : Machine → Focus → Prop) : Machine × Status → Prop
  | (m, .suspended) => I m .begin
  | (m, .finished v) => ∃ m₁ w, I m₁ (.give w) ∧ m₁.frames = [] ∧ m₁.settle w = (v, m)
  | (m, .exhausted) => ∃ φ, I m φ

namespace Lasting

variable {I : Machine → Focus → Prop} (hI : Lasting I)
include hI

theorem run (k : Nat) (h : I m φ) : Returns I (Machine.run k m φ) := by
  induction k generalizing m φ with
  | zero => exact ⟨φ, h⟩
  | succ k ih =>
    rw [Machine.run]
    split
    · rename_i m₁ φ₁ hs
      have := hI.step m φ φ₁ h (by rw [hs]; rfl)
      rw [hs] at this
      exact ih this
    · rename_i m₁ hs
      have := hI.step m φ .begin h (by rw [hs]; rfl)
      rwa [hs] at this
    · rename_i m₁ w hs
      obtain ⟨rfl, hf, rfl⟩ := step_finished hs
      exact ⟨m₁, w, h, hf, rfl⟩

theorem obey {c : Command} {r : Machine × Status} (h : I m .begin) (hr : m.obey c = .ok r) :
    Returns I r := by
  obtain ⟨m₁, hm, rfl⟩ := obey_eq_ok hr
  have h₁ : I m₁ .begin := by
    rcases hm with rfl | rfl
    · exact hI.stops m .begin _ _ h
    · exact hI.stops m .begin _ _ h
  exact hI.run _ (hI.resumption m₁ h₁)

/-- **A schedule keeps what lasts.** -/
theorem drive (cs : List Command) {r : Machine × Status} (h : Returns I r) :
    Returns I (Machine.drive cs r) := by
  induction cs generalizing r with
  | nil => exact h
  | cons c cs ih =>
    rw [Machine.drive.eq_def]
    split
    · rename_i c' cs' m heq
      cases heq
      split
      · rename_i r hr
        exact ih (hI.obey h hr)
      · exact h
    · exact h

end Lasting

end Machine

end Steppable
