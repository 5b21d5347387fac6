import Steppable.Proofs.Lexical.Accessors
import Steppable.Proofs.Machine.Faults

/-!
# Evaluation is lexically scoped

**Theorem (`evaluation_lexical`).** Take a source without errors and evaluate its tree with the
standard host. Unless the evaluation gets too deep, the machine and the lexical interpreter agree: if
one of them ends then so does the other, and up to a renaming of the captured cells they have the
same result and the same contents in these cells.

The machine follows the interpreter with whatever fuel it is given (`simulates_eval`). Fuel that the
machine has no steps for is fuel that suffices, which gives one direction; the other one is that
the machine is determined.
-/

namespace Steppable

namespace Node

/-- The bodies of functions in a scoped tree use their own parameters and free variables only. -/
theorem Scoped.body {Γ : Nat → Prop} {n : Node} (h : n.Scoped Γ) {t : Tag} {code : Lambda}
    (hf : n.Within (.function t code)) :
    code.body.Scoped fun k => idsOf code.free k ∨ idsOf code.params k := by
  induction h with
  | neutral hn _ ih =>
    rcases within_iff.1 hf with rfl | ⟨c, hc, hf⟩
    · simp [isNeutral] at hn
    · exact ih c hc hf
  | declare | var =>
    rcases within_iff.1 hf with he | ⟨c, hc, -⟩
    · simp at he
    · simp [children] at hc
  | block _ ih =>
    rcases within_iff.1 hf with he | ⟨c, hc, hf⟩
    · simp at he
    · exact ih c hc hf
  | function _ _ hbody ih =>
    rcases within_iff.1 hf with he | ⟨c, hc, hf⟩
    · obtain ⟨-, rfl⟩ := Node.function.inj he
      exact hbody
    · obtain rfl := List.mem_singleton.1 hc
      exact ih hf

end Node

namespace Lexical

open Machine

variable {S : Node → Prop} {m m' : Machine} {φ : Focus} {n : Node} {fuel k steps : Nat}
  {u v w : Value} {σ : Store} {ρ : Nat → Nat}

/-! ## The end of an evaluation -/

/-- The machine ends with the result of the interpreter. -/
def Concluded (r : Value × Store) (m : Machine) (φ : Focus) : Prop :=
  ∃ w ρ, φ = .give w ∧ m.frames = [] ∧ (m.settle w).1.rename ρ = r.1 ∧
    Reflects ρ m.cells r.2.values

/-- **The machine follows the interpreter to the end of the evaluation.** -/
theorem follows_evaluate (hP : Program S) (hS : ClosedBodies S) {Γ : Nat → Prop} {s₀ : Cells}
    (h : Stage [] ρ s₀ ρ σ m) (hn : n.Scoped Γ) (ha : Agrees ρ .empty s₀ Γ) (fuel : Nat) :
    Follows S fuel m (.enter n) (evaluate fuel n σ) Concluded := by
  refine follows_alone hP (simulates_eval hP hS fuel) h rfl hn ha fun ρ' σ' m' w hst _ => ?_
  have hplain : m'.settle w = (m'.cells.deref w, { m' with result := some (m'.cells.deref w) }) →
      Follows S fuel m' (.give w) (read (w.rename ρ') σ') Concluded := by
    intro hs
    refine .of_fit fun hf => ?_
    rw [read_rename hf hst]
    refine .here ⟨w, ρ', rfl, hst.frames, ?_, hst.reflects⟩
    rw [hs]
  cases w with
  | signal kind culprit x =>
    cases kind with
    | «return» => exact .here ⟨_, ρ', rfl, hst.frames, rfl, hst.reflects⟩
    | «break» | «continue» =>
      obtain ⟨v, σ'', he, hv, hst'⟩ := hst.fault culprit illegalJump
      show Follows S fuel m' _ (fault culprit illegalJump σ') Concluded
      rw [he]
      exact .here ⟨_, ρ', rfl, hst.frames, hv, hst'.reflects⟩
  | _ => exact hplain rfl

/-- A moment at which the machine has concluded is the last one of a run. -/
theorem run_of_concluded {r : Value × Store} (hp : Path k m (.enter n) m' φ)
    (hc : Concluded r m' φ) : ∃ w ρ, (m'.settle w).1.rename ρ = r.1 ∧ Reflects ρ m'.cells r.2.values ∧
      run (k + 1) m (.enter n) = ((m'.settle w).2, .finished (m'.settle w).1) := by
  obtain ⟨w, ρ, rfl, hf, hw, hr⟩ := hc
  have hs : m'.step (.give w) = (m', .finished w) := by simp [step, hf]
  exact ⟨w, ρ, hw, hr, run_of_path_finished hp hs rfl (Nat.lt_succ_self k)⟩

/-- The results are the same up to the names of captured cells, and so are the contents of these
cells. -/
def SameOutcome (m : Machine) (v : Value) (u : Value) (σ : Store) : Prop :=
  ∃ ρ : Nat → Nat,
    (∀ c c', m.cells.isCaptured c = true → m.cells.isCaptured c' = true → ρ c = ρ c' → c = c') ∧
    v.rename ρ = u ∧
    ∀ c, m.cells.isCaptured c = true → σ.values[ρ c]? = some ((m.cells.get c).rename ρ)

theorem sameOutcome_of_reflects (hr : Reflects ρ m.cells σ.values) (hv : v.rename ρ = u) :
    SameOutcome m v u σ :=
  ⟨ρ, fun _ _ hc hc' => hr.inj (.inr hc) (.inr hc'), hv, fun _ hc => hr.value (.inr hc)⟩

/-- The machine that begins with `m` and the lexical interpreter agree on `n`. -/
structure LexicallyScoped (m : Machine) (n : Node) : Prop where
  sound : ∀ steps m' v, m.start n steps = .ok (m', .finished v) →
    ∃ fuel u σ, evaluate fuel n { next := m.next } = some (u, σ) ∧ SameOutcome m' v u σ
  complete : ∀ fuel u σ, evaluate fuel n { next := m.next } = some (u, σ) →
    ∃ steps m' v, m.start n steps = .ok (m', .finished v) ∧ SameOutcome m' v u σ

/-- Whether a run has ended with another result than an error. -/
def succeeds : Status → Bool
  | .finished v => !v.isError
  | _ => false

/-- An evaluation that succeeds has not got too deep. -/
theorem not_overflows (hP : Program S) (h : Strict S m φ)
    (hs : succeeds (run steps m φ).2 = true) : ¬ Overflows m φ := by
  rintro ⟨k, m₁, φ₁, e, hp, he, -⟩
  have h₁ : Strict S m₁ φ₁ := hp.preserves (Strict.lasting hP).step h
  obtain ⟨-, rfl⟩ := h₁.accounted.of_some he
  obtain ⟨m₂, hrun'⟩ := run_error hP h₁ (Nat.lt_succ_self _)
  rw [← run_of_path hp] at hrun'
  rcases hrun : run steps m φ with ⟨m', s⟩
  rw [hrun] at hs
  cases s with
  | finished v =>
    obtain ⟨-, rfl⟩ := run_finished_unique hrun hrun'
    cases hs
  | suspended | exhausted => cases hs

/-- A new machine that is about to evaluate the tree of a source is fit to follow the interpreter. -/
theorem fit_start {ts : List Node} (hP : Program (nodesOf ts)) (hn : n ∈ ts) (k : Nat) :
    Fit (nodesOf ts) (fresh { next := k }) (.enter n) where
  sorted := (sorted_perpetual hP).start _ n
    (tidied_new (Host.forall_always (Host.honest_standard _)) k) rfl hn
  orderly := (orderly_perpetual hP).start _ n (settled_always (Host.tame_standard _) k) rfl hn
  shaped := ⟨Custody.machines_new trivial (Host.forall_always (Host.faithful_standard _ _)) k, n, hn,
    .refl n⟩
  host := rfl
  quiet := rfl

/-- **Evaluation is lexically scoped** for every source without errors, unless it gets too deep. -/
theorem evaluation_lexical (source : String) (i k : Nat)
    (hf : ((Parser.new {} i).parse source).2.failed = false)
    (ho : ¬ Overflows (fresh { next := k }) (.enter ((Parser.new {} i).parse source).1)) :
    LexicallyScoped { next := k } ((Parser.new {} i).parse source).1 := by
  have hparsed := Parser.parse_sound (Parser.idle_new {} i) source
  have hread : ReadInTurn ([] ++ [((Parser.new {} i).parse source).1]) _ :=
    .read source (.none i) (.new {} i) (Nat.le_refl i)
  generalize (Parser.new {} i).parse source = r at hf ho hparsed hread ⊢
  obtain ⟨n, p⟩ := r
  dsimp only at hf ho hparsed hread ⊢
  have hscoped : n.Scoped fun _ => False := by
    refine (hparsed.bound hf).mono fun d hd => ?_
    have hglobals : p.scope.globals = [] := by
      rw [Scope.globals, hparsed.options]
      rfl
    simp [hglobals, idsOf] at hd
  have hP := hread.program
  have hbodies : ClosedBodies (nodesOf ([] ++ [n])) := by
    rintro t code ⟨x, hx, hw⟩
    obtain rfl := List.mem_singleton.1 hx
    exact hscoped.body hw
  have hfit := fit_start hP (n := n) (by simp) k
  have hnone : ∀ {c}, ¬ ({} : Cells).Live c := fun hc =>
    Nat.not_lt_zero _ (Cells.partitioned_empty.lt_of_live hc)
  have hstage : Stage [] id {} id { next := k } (fresh { next := k }) :=
    ⟨rfl, ⟨fun hc => (hnone hc).elim, fun hc => (hnone hc).elim, fun hc => (hnone hc).elim⟩, rfl, rfl,
      .refl _ _, fun _ => rfl⟩
  have hfollows : ∀ fuel, _ := fun fuel =>
    ((follows_evaluate hP hbodies hstage hscoped (fun _ hd => hd.elim) fuel) hfit).resolve_left ho
  have hidle : ({ next := k } : Machine).isPending = false := rfl
  constructor
  · intro steps m v hrun
    rw [start_eq hidle, Except.ok.injEq] at hrun
    obtain ⟨hend, hlong⟩ := hfollows steps
    cases hr : evaluate steps n { next := k } with
    | none =>
      -- The machine would have taken more steps than it had.
      obtain ⟨j, m', φ', hj, hp⟩ := hlong hr
      exact (Nat.not_lt_of_le hj (hp.lt_of_run_finished hrun)).elim
    | some r =>
      obtain ⟨j, m', φ', hp, hc⟩ := hend r hr
      obtain ⟨w, ρ, hw, href, hrun'⟩ := run_of_concluded hp hc
      obtain ⟨rfl, rfl⟩ := run_finished_unique hrun hrun'
      refine ⟨steps, r.1, r.2, hr, sameOutcome_of_reflects ?_ hw⟩
      rwa [(settle_frames m' w).1]
  · intro fuel u σ hr
    obtain ⟨j, m', φ', hp, hc⟩ := (hfollows fuel).1 (u, σ) hr
    obtain ⟨w, ρ, hw, href, hrun⟩ := run_of_concluded hp hc
    refine ⟨j + 1, (m'.settle w).2, (m'.settle w).1, ?_, sameOutcome_of_reflects ?_ hw⟩
    · rw [start_eq hidle, hrun]
    · rwa [(settle_frames m' w).1]

/-- A function changes a parameter that it has captured, within the call that it belongs to and after
this has ended. -/
def toggling : String :=
  "(function(x) { var f = function() { x = !x; return x; };
    do { f(); break; } while (true); return f; })(null)()"

theorem evaluation_lexical_captured : LexicallyScoped {} ((Parser.new {}).parse toggling).1 := by
  have hread := ReadInTurn.read toggling (.none 1) (.new {} 1) (Nat.le_refl 1)
  have hstrict := (strict_perpetual hread.program).start _ _ (unfailing_new _ 1) rfl
    (List.mem_append_right [] (List.mem_singleton_self _))
  have hsucceeds : succeeds (run 100 (fresh { next := 1 })
      (.enter ((Parser.new {}).parse toggling).1)).2 = true := by
    decide +kernel
  exact evaluation_lexical _ 1 1 (by decide +kernel) (not_overflows hread.program hstrict hsucceeds)

end Lexical

end Steppable
