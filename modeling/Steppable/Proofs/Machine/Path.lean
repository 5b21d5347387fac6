import Steppable.Machine.Run

/-!
# Paths of a machine

A run takes steps until the machine stops or ends. `Path` counts the steps that lead from one moment
of an evaluation to another; a run is a path followed by the step that stops it (`run_eq_suspended`)
or ends it (`run_eq_finished`). What a step preserves, a whole path preserves (`Path.preserves`).

A machine that has stopped stands before the node of its top frame, so for what holds from one
moment to the next a stop counts as the moment before that node begins (`Progress.next?`).
-/

namespace Steppable

/-- Where an evaluation goes on after a step, if it has not ended. -/
def Progress.next? : Progress → Option Focus
  | .running φ => some φ
  | .suspended => some .begin
  | .finished _ => none

namespace Machine

variable {m m₁ m₂ m' : Machine} {φ φ₁ φ₂ φ' : Focus} {j k steps : Nat} {v w : Value}

/-- `k` steps lead from `m`, about to do `φ`, to another moment. -/
inductive Path : Nat → Machine → Focus → Machine → Focus → Prop
  | refl (m : Machine) (φ : Focus) : Path 0 m φ m φ
  | step {k : Nat} {m m₁ m₂ : Machine} {φ φ₁ φ₂ : Focus} :
      m.step φ = (m₁, .running φ₁) → Path k m₁ φ₁ m₂ φ₂ → Path (k + 1) m φ m₂ φ₂

theorem Path.single (h : m.step φ = (m₁, .running φ₁)) : Path 1 m φ m₁ φ₁ :=
  .step h (.refl m₁ φ₁)

theorem Path.trans (h : Path j m φ m₁ φ₁) (h' : Path k m₁ φ₁ m₂ φ₂) : Path (j + k) m φ m₂ φ₂ := by
  induction h with
  | refl => simpa using h'
  | @step j _ _ _ _ _ _ hs _ ih =>
    rw [show j + 1 + k = (j + k) + 1 by omega]
    exact .step hs (ih h')

/-- Every moment on the way of a path lies on it. -/
theorem Path.split (h : Path (j + k) m φ m₂ φ₂) :
    ∃ m₁ φ₁, Path j m φ m₁ φ₁ ∧ Path k m₁ φ₁ m₂ φ₂ := by
  induction j generalizing m φ with
  | zero => exact ⟨m, φ, .refl m φ, by simpa using h⟩
  | succ j ih =>
    rw [show j + 1 + k = (j + k) + 1 by omega] at h
    cases h with
    | step hs ht =>
      obtain ⟨m₁, φ₁, h₁, h₂⟩ := ih ht
      exact ⟨m₁, φ₁, .step hs h₁, h₂⟩

/-- Steps are determined, so paths of one length from one moment are the same. -/
theorem Path.unique (h : Path k m φ m₁ φ₁) (h' : Path k m φ m₂ φ₂) : m₁ = m₂ ∧ φ₁ = φ₂ := by
  induction h with
  | refl =>
    cases h' with
    | refl => exact ⟨rfl, rfl⟩
  | step hs _ ih =>
    cases h' with
    | step hs' ht' =>
      rw [hs] at hs'
      cases hs'
      exact ih ht'

/-- **What a step preserves, a path preserves.** -/
theorem Path.preserves {I : Machine → Focus → Prop}
    (hI : ∀ m φ φ', I m φ → (m.step φ).2.next? = some φ' → I (m.step φ).1 φ')
    (h : Path k m φ m' φ') (hm : I m φ) : I m' φ' := by
  induction h with
  | refl => exact hm
  | @step _ m m₁ _ φ φ₁ _ hs _ ih =>
    have h₁ : I m₁ φ₁ := by
      have := hI m φ φ₁ hm (by rw [hs]; rfl)
      rwa [hs] at this
    exact ih h₁

/-! ## Runs -/

/-- What the first step of a run decides. -/
theorem run_succ (steps : Nat) (m : Machine) (φ : Focus) :
    (∃ m₁ φ₁, m.step φ = (m₁, .running φ₁) ∧ run (steps + 1) m φ = run steps m₁ φ₁) ∨
    (∃ m₁, m.step φ = (m₁, .suspended) ∧ run (steps + 1) m φ = (m₁, .suspended)) ∨
    ∃ m₁ w, m.step φ = (m₁, .finished w) ∧
      run (steps + 1) m φ = ((m₁.settle w).2, .finished (m₁.settle w).1) := by
  rw [run]
  split
  · exact .inl ⟨_, _, ‹_›, rfl⟩
  · exact .inr (.inl ⟨_, ‹_›, rfl⟩)
  · exact .inr (.inr ⟨_, _, ‹_›, rfl⟩)

theorem run_of_path (h : Path j m φ m' φ') : run (j + k) m φ = run k m' φ' := by
  induction h with
  | refl => rw [Nat.zero_add]
  | @step j _ _ _ _ _ _ hs _ ih =>
    rw [show j + 1 + k = (j + k) + 1 by omega, run, hs]
    exact ih

/-- A run that stops took a path to the step that stopped it. -/
theorem run_eq_suspended (h : run steps m φ = (m', .suspended)) :
    ∃ k m₁ φ₁, k < steps ∧ Path k m φ m₁ φ₁ ∧ m₁.step φ₁ = (m', .suspended) := by
  induction steps generalizing m φ with
  | zero => cases h
  | succ steps ih =>
    obtain ⟨m₁, φ₁, hs, hr⟩ | ⟨m₁, hs, hr⟩ | ⟨m₁, w, hs, hr⟩ := run_succ steps m φ
    · obtain ⟨k, m₂, φ₂, hk, hp, he⟩ := ih (hr.symm.trans h)
      exact ⟨k + 1, m₂, φ₂, by omega, .step hs hp, he⟩
    · obtain ⟨rfl, -⟩ := Prod.mk.inj (hr.symm.trans h)
      exact ⟨0, m, φ, by omega, .refl m φ, hs⟩
    · cases hr.symm.trans h

/-- A run that ends took a path to the step that ended it. -/
theorem run_eq_finished (h : run steps m φ = (m', .finished v)) :
    ∃ k m₁ φ₁ m₂ w, k < steps ∧ Path k m φ m₁ φ₁ ∧ m₁.step φ₁ = (m₂, .finished w) ∧
      m₂.settle w = (v, m') := by
  induction steps generalizing m φ with
  | zero => cases h
  | succ steps ih =>
    obtain ⟨m₁, φ₁, hs, hr⟩ | ⟨m₁, hs, hr⟩ | ⟨m₁, w, hs, hr⟩ := run_succ steps m φ
    · obtain ⟨k, m₂, φ₂, m₃, w, hk, hp, he⟩ := ih (hr.symm.trans h)
      exact ⟨k + 1, m₂, φ₂, m₃, w, by omega, .step hs hp, he⟩
    · cases hr.symm.trans h
    · cases hr.symm.trans h
      exact ⟨0, m, φ, m₁, w, by omega, .refl m φ, hs, rfl⟩

theorem run_of_path_finished (h : Path k m φ m₁ φ₁) (hs : m₁.step φ₁ = (m₂, .finished w))
    (hw : m₂.settle w = (v, m')) (hk : k < steps) : run steps m φ = (m', .finished v) := by
  obtain ⟨j, rfl⟩ := Nat.exists_eq_add_of_le hk
  rw [show k + 1 + j = k + (j + 1) by omega, run_of_path h, run, hs]
  simp [hw]

/-- A run whose steps do not suffice takes all of them. -/
theorem path_of_run_exhausted (h : (run steps m φ).2 = .exhausted) :
    ∃ m' φ', Path steps m φ m' φ' := by
  induction steps generalizing m φ with
  | zero => exact ⟨m, φ, .refl m φ⟩
  | succ steps ih =>
    obtain ⟨m₁, φ₁, hs, hr⟩ | ⟨m₁, hs, hr⟩ | ⟨m₁, w, hs, hr⟩ := run_succ steps m φ
    · obtain ⟨m', φ', hp⟩ := ih (hr ▸ h)
      exact ⟨m', φ', .step hs hp⟩
    · cases hr ▸ h
    · cases hr ▸ h

end Machine

end Steppable
