import Steppable.Proofs.Machine.Descent
import Steppable.Proofs.Machine.Faults
import Steppable.Proofs.Parser.Errors

/-!
# Programs without loops terminate

**Theorem (`loopless_terminates`).** A machine with the standard host that is started without
breakpoints on a tree without loops comes to an end, with a value or an error, however the functions
of the script call themselves or each other.

A recursion without end is no counterexample: every step goes down (`falls_step`), and a descent
through stacks of bounded height is finite (`wellFounded_falls`). What would become of the recursion
is the error that a node gives when there is no room for its frame.
-/

namespace Steppable.Machine

variable {m : Machine} {n : Node} {φ : Focus} {S : Node → Prop} {ts : List Node} {next : Nat}

theorem length_trace_le (hfit : Fits m.cores) (φ : Focus) :
    (m.trace φ).length ≤ maxFrames + 2 := by
  have h := hfit.length_le
  rw [cores, List.length_map] at h
  cases φ <;> simp only [trace, List.length_append, List.length_singleton, length_ranks] <;> omega

/-- **A run that nothing stops ends**, from every orderly moment of a program without loops. -/
theorem run_quiet_ends (hP : Program S) (hS : ∀ n, S n → n.isLoop = false) (h : Orderly S m φ)
    (hfit : Fits m.cores) : ∃ k m' v, run k m.quiet φ = (m', .finished v) := by
  generalize ht : m.trace φ = t
  induction t using (wellFounded_falls (maxFrames + 2)).induction generalizing m φ with
  | h t ih =>
    subst ht
    rcases hs : m.step φ with ⟨m₁, p⟩
    cases hn : p.next? with
    | none =>
      cases p with
      | running ψ => simp [Progress.next?] at hn
      | suspended => simp [Progress.next?] at hn
      | finished w =>
        obtain ⟨-, hf, rfl⟩ := step_finished hs
        have hstep : m.quiet.step (.give w) = (m.quiet, .finished w) := by
          have : m.quiet.frames = [] := hf
          simp [step, this]
        exact ⟨1, (m.quiet.settle w).2, (m.quiet.settle w).1, by rw [run, hstep]⟩
    | some ψ =>
      have hn' : (m.step φ).2.next? = some ψ := by rw [hs]; exact hn
      obtain ⟨hfit₁, hfalls⟩ := falls_step hP hS h hfit hn'
      have ho := (Orderly.lasting hP).step m φ ψ h hn'
      have hstep := quiet_step_of_next hn'
      obtain ⟨k, m', v, hk⟩ := ih _ ⟨length_trace_le hfit φ, hfalls⟩ ho hfit₁ rfl
      exact ⟨k + 1, m', v, by rw [run, hstep]; exact hk⟩

/-- What an evaluation settles on is no signal. -/
theorem isSignal_settle {v : Value} (h : Strict S m (.give v)) :
    (m.settle v).1.isSignal = false := by
  have hplain : ∀ w : Value, w.isAbrupt = false → w.isSignal = false := fun w hw =>
    (Bool.or_eq_false_iff.1 hw).2
  cases v with
  | signal kind culprit w =>
    cases kind with
    | «return» => exact hplain w (h.sane _ culprit w rfl)
    | «break» | «continue» => rfl
  | reference c => exact hplain _ (h.sober.cells c)
  | _ => rfl

/-- **Programs without loops terminate.** With the standard host and no breakpoints the evaluation of
a tree that has been read in turn ends after finitely many steps, with a value or an error, if there
is no loop in any of the trees. -/
theorem loopless_terminates (ht : ReadInTurn ts next)
    (hl : ∀ t ∈ ts, ∀ x ∈ t.nodes, x.isLoop = false) (hm : Reached Host.standard ts (m, none))
    (hi : m.isPending = false) (hn : n ∈ ts) :
    ∃ k m' v, (∀ steps, k ≤ steps →
        { m with breakpoints := {} }.start n steps = .ok (m', .finished v)) ∧
      v.isSignal = false ∧ m'.result = some v ∧ m'.isPending = false := by
  have hP := ht.program
  have hS : ∀ x, nodesOf ts x → x.isLoop = false := fun x ⟨t, htm, hx⟩ =>
    hl t htm x (Node.mem_nodes_iff.2 hx)
  have hperp := strict_perpetual hP
  have hstart : Strict (nodesOf ts) (fresh { m with breakpoints := {} }) (.enter n) :=
    hperp.start _ n (hperp.of_reached (unfailing_new _) (hm.turn (.breakpoints m {}))) hi hn
  have hframes : (fresh { m with breakpoints := {} }).frames = [] := frames_of_isPending hi
  have hfit : Fits (fresh { m with breakpoints := {} }).cores := by
    rw [cores, hframes]
    trivial
  obtain ⟨k, m', v, hk⟩ := run_quiet_ends hP hS hstart.orderly hfit
  have hk : run k (fresh { m with breakpoints := {} }) (.enter n) = (m', .finished v) := hk
  refine ⟨k, m', v, fun steps hsteps => ?_, ?_⟩
  · rw [start_eq (m := { m with breakpoints := {} }) hi, run_finished_mono hk hsteps]
  · have hret := (Strict.lasting hP).run k hstart
    rw [hk] at hret
    obtain ⟨m₁, w, hw, hf, hs⟩ := hret
    have hsignal := isSignal_settle hw
    have hset := (settle_frames m₁ w).2.1
    have hresult : (m₁.settle w).2.result = some (m₁.settle w).1 := rfl
    rw [hs] at hsignal hset hresult
    exact ⟨hsignal, hresult, isPending_of_frames (hset.trans hf)⟩

/-- The call of a function that the script makes ends. -/
theorem loopless_terminates_call :
    ∃ k m' v, (∀ steps, k ≤ steps →
        start {} ((Parser.new {}).parse "(function () { return 1; })()").1 steps =
          .ok (m', .finished v)) ∧
      v.isSignal = false ∧ m'.result = some v ∧ m'.isPending = false :=
  loopless_terminates (.read _ (.none 1) (.new {} 1) (Nat.le_refl 1))
    (fun t ht => List.mem_singleton.1 ht ▸ (by decide +kernel)) (reached_new _ _ 1) rfl
    (List.mem_append_right [] (List.mem_singleton_self _))

end Steppable.Machine
