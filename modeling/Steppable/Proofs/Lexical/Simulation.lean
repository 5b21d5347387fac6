import Steppable.Proofs.Lexical.Correspondence
import Steppable.Proofs.Machine.Transparency

/-!
# Following the interpreter

A machine follows the interpreter: where the interpreter comes to a result, the machine takes some
steps to a moment that corresponds to it, and where the interpreter runs out of fuel, the machine
takes at least as many steps (`Follows`). The only way out is an evaluation that gets too deep, which
the interpreter knows nothing about.

This is put together from steps and from computations that follow one another, so that each kind of
node is a short chain of them. Between the parts of a node the machine is at a `Stage`: its frames
are known, its live cells are those of the interpreter under a renaming, and with respect to the
beginning of the node nothing has been lost.
-/

namespace Steppable

/-- The custody of the functions that have one captured cell for each free variable. -/
def shapeCustody (S : Node → Prop) : Custody where
  nodes := S
  cells _ := True
  functions _ f := (∃ t, S (.function t f.code)) ∧ f.captures.map (·.1) = f.code.free
  rules r := r.Faithful True fun f =>
    (∃ t, S (.function t f.code)) ∧ f.captures.map (·.1) = f.code.free
  references := True

theorem map_fst_captureAll {s s' : Cells} {ds : List Declaration}
    {captures : List (Declaration × Nat)} (h : Machine.captureAll s ds = (.ok captures, s')) :
    captures.map (·.1) = ds := by
  induction ds generalizing s captures with
  | nil =>
    obtain ⟨hc, -⟩ := Prod.mk.inj h
    obtain rfl := Except.ok.inj hc
    rfl
  | cons d ds ih =>
    rw [Machine.captureAll] at h
    split at h
    · simp at h
    · split at h
      · rename_i rest s₁ hrest
        obtain ⟨hc, rfl⟩ := Prod.mk.inj h
        obtain rfl := Except.ok.inj hc
        rw [List.map_cons, ih hrest]
      · simp at h

theorem shapeCustody_lawful {S : Node → Prop} (hP : Program S) : (shapeCustody S).Lawful where
  children := hP.children
  literal := hP.literal
  code h := h.1
  renew _ _ h := h
  register _ _ _ _ := ⟨trivial, fun _ h => h⟩
  unregister _ _ _ := ⟨trivial, fun _ h => h⟩
  set _ _ _ _ := ⟨trivial, fun _ h => h⟩
  capture _ _ := ⟨trivial, fun _ h => h⟩
  push _ _ _ := ⟨trivial, fun _ h => h⟩
  make _ _ hn hc := ⟨⟨_, hn⟩, map_fst_captureAll hc⟩
  faithful _ _ hr := hr
  members v := Host.faithful_members _ _ v

namespace Lexical

open Machine

variable {S : Node → Prop} {m m' m₁ : Machine} {φ φ₁ : Focus} {fuel : Nat} {α β : Type}

/-! ## Machines that can follow -/

/-- The machine evaluates a program with the standard host and without stops, and is in order. -/
structure Fit (S : Node → Prop) (m : Machine) (φ : Focus) : Prop where
  sorted : Sorted S (fun _ => False) m φ
  orderly : Orderly S m φ
  shaped : (shapeCustody S).Holds m φ
  host : m.host = Host.standard
  quiet : m.quiet = m

theorem Fit.step (hP : Program S) (h : Fit S m φ) (hs : m.step φ = (m₁, .running φ₁)) :
    Fit S m₁ φ₁ := by
  have hn : (m.step φ).2.next? = some φ₁ := by
    rw [hs]
    rfl
  obtain rfl : (m.step φ).1 = m₁ := congrArg Prod.fst hs
  refine ⟨(Sorted.lasting hP).step m φ φ₁ h.sorted hn, (Orderly.lasting hP).step m φ φ₁ h.orderly hn,
    (Custody.lasting (shapeCustody_lawful hP)).step m φ φ₁ h.shaped hn, ?_, ?_⟩
  · rw [show (m.step φ).1.host = m.host from congrArg Prod.fst (settings_step m φ)]
    exact h.host
  · have hq := (step_quiet m φ).machine
    rwa [h.quiet] at hq

theorem Fit.path (hP : Program S) {k : Nat} (h : Fit S m φ) (hp : Path k m φ m₁ φ₁) :
    Fit S m₁ φ₁ := by
  induction hp with
  | refl => exact h
  | step hs _ ih => exact ih (h.step hP hs)

/-- The evaluation gets too deep. -/
def Overflows (m : Machine) (φ : Focus) : Prop :=
  ∃ k m' φ' f, Path k m φ m' φ' ∧ m'.lastFault = some f ∧ f.message = tooDeep

theorem Overflows.of_path {k : Nat} (hp : Path k m φ m₁ φ₁) (h : Overflows m₁ φ₁) :
    Overflows m φ := by
  obtain ⟨j, m', φ', f, hj, hf⟩ := h
  exact ⟨k + j, m', φ', f, hp.trans hj, hf⟩

/-- From `m`, about to do `φ`, the machine gets to a moment `Q` of the result, or takes at least
`fuel` steps if there is none, unless it gets too deep. -/
def Follows (S : Node → Prop) (fuel : Nat) (m : Machine) (φ : Focus) (o : Option α)
    (Q : α → Machine → Focus → Prop) : Prop :=
  Fit S m φ → Overflows m φ ∨
    (∀ a, o = some a → ∃ k m' φ', Path k m φ m' φ' ∧ Q a m' φ') ∧
    (o = none → ∃ k m' φ', fuel ≤ k ∧ Path k m φ m' φ')

variable {o : Option α} {Q : α → Machine → Focus → Prop} {R : β → Machine → Focus → Prop}

theorem Follows.here {a : α} (h : Q a m φ) : Follows S fuel m φ (some a) Q := fun _ =>
  .inr ⟨fun _ ha => ⟨0, m, φ, .refl m φ, Option.some.inj ha ▸ h⟩, by simp⟩

theorem Follows.empty : Follows S 0 m φ (none : Option α) Q := fun _ =>
  .inr ⟨by simp, fun _ => ⟨0, m, φ, Nat.zero_le 0, .refl m φ⟩⟩

theorem Follows.of_fit (h : Fit S m φ → Follows S fuel m φ o Q) : Follows S fuel m φ o Q :=
  fun hf => h hf hf

/-- One step of the machine is worth one unit of fuel. -/
theorem Follows.step_succ (hP : Program S) (hs : m.step φ = (m₁, .running φ₁))
    (h : Follows S fuel m₁ φ₁ o Q) : Follows S (fuel + 1) m φ o Q := by
  intro hf
  rcases h (hf.step hP hs) with h | ⟨h₁, h₂⟩
  · exact .inl (h.of_path (.single hs))
  · refine .inr ⟨fun a ha => ?_, fun ho => ?_⟩
    · obtain ⟨k, m', φ', hp, hq⟩ := h₁ a ha
      exact ⟨k + 1, m', φ', .step hs hp, hq⟩
    · obtain ⟨k, m', φ', hk, hp⟩ := h₂ ho
      exact ⟨k + 1, m', φ', Nat.succ_le_succ hk, .step hs hp⟩

/-- Less fuel asks for fewer steps. -/
theorem Follows.less {fuel' : Nat} (h : Follows S fuel m φ o Q) (hle : fuel' ≤ fuel) :
    Follows S fuel' m φ o Q := by
  intro hf
  refine (h hf).imp_right fun ⟨h₁, h₂⟩ => ⟨h₁, fun ho => ?_⟩
  obtain ⟨k, m', φ', hk, hp⟩ := h₂ ho
  exact ⟨k, m', φ', Nat.le_trans hle hk, hp⟩

theorem Follows.step (hP : Program S) (hs : m.step φ = (m₁, .running φ₁))
    (h : Follows S fuel m₁ φ₁ o Q) : Follows S fuel m φ o Q :=
  (h.step_succ hP hs).less (Nat.le_succ fuel)

/-- **What follows one another follows.** -/
theorem Follows.bind (hP : Program S) {x : Run α} {f : α → Run β} {σ : Store}
    {Q : α × Store → Machine → Focus → Prop} {R : β × Store → Machine → Focus → Prop}
    (h : Follows S fuel m φ (x σ) Q)
    (hf : ∀ a σ' m' φ', Q (a, σ') m' φ' → Follows S fuel m' φ' (f a σ') R) :
    Follows S fuel m φ ((x >>= f) σ) R := by
  intro hfit
  have hbind : (x >>= f) σ = (x σ).bind fun p => f p.1 p.2 := rfl
  rw [hbind]
  rcases h hfit with h | ⟨h₁, h₂⟩
  · exact .inl h
  · cases hx : x σ with
    | none => exact .inr ⟨by simp, fun _ => h₂ hx⟩
    | some p =>
      obtain ⟨k, m', φ', hp, hq⟩ := h₁ p hx
      rcases hf p.1 p.2 m' φ' hq (hfit.path hP hp) with h' | ⟨h₁', h₂'⟩
      · exact .inl (h'.of_path hp)
      · refine .inr ⟨fun b hb => ?_, fun ho => ?_⟩
        · obtain ⟨j, m'', φ'', hj, hr⟩ := h₁' b hb
          exact ⟨k + j, m'', φ'', hp.trans hj, hr⟩
        · obtain ⟨j, m'', φ'', hle, hj⟩ := h₂' ho
          exact ⟨k + j, m'', φ'', by omega, hp.trans hj⟩

/-! ## Stages -/

/-- The machine has the frames `fs` and the live cells of the store, and since the beginning, when
the cells were `s₀` under the names `ρ₀`, nothing has been lost. -/
structure Stage (fs : List Frame) (ρ₀ : Nat → Nat) (s₀ : Cells) (ρ : Nat → Nat) (σ : Store)
    (m : Machine) : Prop where
  frames : m.frames = fs
  reflects : Reflects ρ m.cells σ.values
  lastFault : σ.lastFault = m.lastFault
  next : σ.next = m.next
  since : Extends ρ₀ s₀ ρ m.cells
  stack_eq : ∀ d, m.cells.stack d = s₀.stack d

/-- The machine gives the value of the interpreter. -/
def Done (fs : List Frame) (ρ₀ : Nat → Nat) (s₀ : Cells) (r : Value × Store) (m : Machine)
    (φ : Focus) : Prop :=
  ∃ ρ w, φ = .give w ∧ w.rename ρ = r.1 ∧ Stage fs ρ₀ s₀ ρ r.2 m

/-- The accessors from the top of the stack that wait for what they are applied to. -/
def chainOf (fs : List Frame) : List Node :=
  (fs.takeWhile (·.phase.isAccessed)).map Frame.node

/-- Nothing has been gathered for these accessors yet, and the variables in their arguments are
those in `Γ`. -/
def Clear (Γ : Nat → Prop) (fs : List Frame) : Prop :=
  ∀ f ∈ fs.takeWhile (·.phase.isAccessed), f.gathered = none ∧ ∀ a ∈ f.node.arguments, a.Scoped Γ

/-- The frames `gs` are `fs` after the first `k` of them have got the result `w`. -/
structure Answered (w : Value) (k : Nat) (fs gs : List Frame) : Prop where
  within : k ≤ (chainOf fs).length
  cores : gs.map Frame.core = fs.map Frame.core
  rest : gs.drop k = fs.drop k
  result : ∀ f ∈ gs.take k, f.result = some w

/-- The machine gives the value of the interpreter, also to the accessors that have it as well. -/
def Answers (fs : List Frame) (ρ₀ : Nat → Nat) (s₀ : Cells) (r : (Value × Nat) × Store) (m : Machine)
    (φ : Focus) : Prop :=
  ∃ ρ w gs, φ = .give w ∧ w.rename ρ = r.1.1 ∧ Answered w r.1.2 fs gs ∧ Stage gs ρ₀ s₀ ρ r.2 m

/-- The machine follows the interpreter on every node whose variables are in the environment. -/
def Simulates (S : Node → Prop) (fuel : Nat) (E : Evaluator) : Prop :=
  ∀ {fs : List Frame} {ρ : Nat → Nat} {σ : Store} {m : Machine} {n : Node} {Γ : Nat → Prop}
    {env : Env}, Stage fs ρ m.cells ρ σ m → Clear Γ fs → n.Scoped Γ → Agrees ρ env m.cells Γ →
    Follows S fuel m (.enter n) (E (chainOf fs) env n σ) (Answers fs ρ m.cells)

theorem Simulates.less {E : Evaluator} {fuel' : Nat} (h : Simulates S fuel E) (hle : fuel' ≤ fuel) :
    Simulates S fuel' E :=
  fun hst hc hn ha => (h hst hc hn ha).less hle

variable {f : Frame} {fs gs : List Frame} {ρ₀ ρ ρ' : Nat → Nat} {s₀ : Cells} {σ σ' : Store}
  {n c : Node} {Γ : Nat → Prop} {env : Env} {E : Evaluator} {v w : Value} {ψ : Phase}

theorem Stage.rebase (h : Stage fs ρ₀ s₀ ρ σ m) : Stage fs ρ m.cells ρ σ m :=
  ⟨h.frames, h.reflects, h.lastFault, h.next, .refl ρ m.cells, fun _ => rfl⟩

theorem Stage.trans (h : Stage fs ρ₀ s₀ ρ σ m) (h' : Stage gs ρ m.cells ρ' σ' m') :
    Stage gs ρ₀ s₀ ρ' σ' m' :=
  ⟨h'.frames, h'.reflects, h'.lastFault, h'.next, h.since.trans h'.since,
    fun d => (h'.stack_eq d).trans (h.stack_eq d)⟩

theorem Stage.agrees (h : Stage fs ρ₀ s₀ ρ σ m) (ha : Agrees ρ₀ env s₀ Γ) :
    Agrees ρ env m.cells Γ :=
  ha.extend h.since h.stack_eq

theorem Answered.eq_of_zero (h : Answered w 0 fs gs) : gs = fs := h.rest

theorem Answered.refl (w : Value) (fs : List Frame) : Answered w 0 fs fs :=
  ⟨Nat.zero_le _, rfl, rfl, by simp⟩

theorem Done.answers {r : Value × Store} (h : Done fs ρ₀ s₀ r m φ) :
    Answers fs ρ₀ s₀ ((r.1, 0), r.2) m φ := by
  obtain ⟨ρ, w, rfl, hw, hst⟩ := h
  exact ⟨ρ, w, fs, rfl, hw, .refl w fs, hst⟩

/-! ## Steps at a stage -/

theorem step_give (h : Stage (f :: fs) ρ₀ s₀ ρ σ m) (w : Value) :
    m.step (.give w) = m.receive f w := by
  rw [Machine.step, h.frames]

/-- The top frame waits on for another node. -/
theorem follows_await_succ (hP : Program S) (h : Stage (f :: fs) ρ₀ s₀ ρ σ m₁)
    (hs : m.step φ = m₁.await ψ c)
    (hk : ∀ m', Stage ({ f with phase := ψ } :: fs) ρ₀ s₀ ρ σ m' → m'.cells = m₁.cells →
      Follows S fuel m' (.enter c) o Q) : Follows S (fuel + 1) m φ o Q := by
  have ha : m₁.await ψ c =
      ({ m₁ with frames := { f with phase := ψ } :: fs }, .running (.enter c)) := by
    rw [await, h.frames]
  refine .step_succ hP (hs.trans ha) (hk _ ?_ rfl)
  exact ⟨rfl, h.reflects, h.lastFault, h.next, h.since, h.stack_eq⟩

theorem follows_await (hP : Program S) (h : Stage (f :: fs) ρ₀ s₀ ρ σ m₁)
    (hs : m.step φ = m₁.await ψ c)
    (hk : ∀ m', Stage ({ f with phase := ψ } :: fs) ρ₀ s₀ ρ σ m' → m'.cells = m₁.cells →
      Follows S fuel m' (.enter c) o Q) : Follows S fuel m φ o Q :=
  (follows_await_succ hP h hs hk).less (Nat.le_succ fuel)

/-- The top frame ends, and with it the variables that have been added since the beginning. -/
theorem follows_leave (hP : Program S) {ρ₁ : Nat → Nat} {s₁ : Cells}
    (h : Stage (f :: fs) ρ₁ s₁ ρ σ m₁) (hx : Extends ρ₀ s₀ ρ₁ s₁)
    (hb : ∀ d, s₁.below f.ownVariables d = s₀.stack d) (hp : m₁.cells.Partitioned)
    (hs : m.step φ = m₁.finish w)
    (hk : ∀ m', Stage fs ρ₀ s₀ ρ σ m' → Follows S fuel m' (.give w) o Q) :
    Follows S fuel m φ o Q := by
  have hf : m₁.finish w =
      ({ m₁ with frames := fs, cells := m₁.cells.leave f }, .running (.give w)) := by
    rw [finish, h.frames]
    rfl
  have hx' : Extends ρ₀ s₀ ρ m₁.cells := hx.trans h.since
  have hstacks : ∀ d, (m₁.cells.leave f).stack d = s₀.stack d := by
    intro d
    rw [← Cells.below_nil, Cells.below_leave, List.append_nil, Cells.below_of_stack h.stack_eq]
    exact hb d
  have hcap : ∀ {c}, s₀.isCaptured c = true → (m₁.cells.leave f).isCaptured c = true := by
    intro c hc
    rw [Cells.leave, Cells.isCaptured_unregisterAll]
    exact hx'.captured hc
  refine .step hP (hs.trans hf) (hk _ ?_)
  refine ⟨rfl, h.reflects.unregisterAll hp f.ownVariables, h.lastFault, h.next,
    ⟨fun hc => ?_, hcap, hx'.same⟩, hstacks⟩
  rcases hc with ⟨d, hd⟩ | hc
  · exact .inl ⟨d, (hstacks d).symm ▸ hd⟩
  · exact .inr (hcap hc)

/-- The top frame, which has no variables, ends. -/
theorem follows_pop (hP : Program S) (h : Stage (f :: fs) ρ₀ s₀ ρ σ m₁)
    (hb : f.phase.isBare = true) (hs : m.step φ = m₁.finish w)
    (hk : ∀ m', Stage fs ρ₀ s₀ ρ σ m' → Follows S fuel m' (.give w) o Q) :
    Follows S fuel m φ o Q := by
  have hleave : m₁.cells.leave f = m₁.cells := by
    rw [Cells.leave, Frame.ownVariables_of_isBare hb]
    rfl
  have hf : m₁.finish w = ({ m₁ with frames := fs }, .running (.give w)) := by
    rw [finish, h.frames]
    dsimp only [give]
    rw [hleave]
  refine .step hP (hs.trans hf) (hk _ ?_)
  exact ⟨rfl, h.reflects, h.lastFault, h.next, h.since, h.stack_eq⟩

theorem follows_done (h : Stage fs ρ₀ s₀ ρ σ m) (hw : w.rename ρ = v) :
    Follows S fuel m (.give w) (some (v, σ)) (Done fs ρ₀ s₀) :=
  .here ⟨ρ, w, rfl, hw, h⟩

/-- The top frame, which has no variables, ends with the result. -/
theorem follows_finish (hP : Program S) (h : Stage (f :: fs) ρ₀ s₀ ρ σ m₁)
    (hb : f.phase.isBare = true) (hs : m.step φ = m₁.finish w) (hw : w.rename ρ = v) :
    Follows S fuel m φ (some (v, σ)) (Done fs ρ₀ s₀) :=
  follows_pop hP h hb hs fun _ h' => follows_done h' hw

/-- A new error is the same for both. -/
theorem Stage.fault (h : Stage fs ρ₀ s₀ ρ σ m) (culprit : Node) (message : String) :
    ∃ v σ', Lexical.fault culprit message σ = some (v, σ') ∧
      (m.fault culprit message).1.rename ρ = v ∧
      Stage fs ρ₀ s₀ ρ σ' (m.fault culprit message).2 := by
  refine ⟨_, _, rfl, ?_, h.frames, h.reflects, ?_, ?_, h.since, h.stack_eq⟩
  · rw [h.next, h.lastFault]
    rfl
  · rw [h.next, h.lastFault]
    rfl
  · exact congrArg (· + 1) h.next

theorem follows_finishFault (hP : Program S) (h : Stage (f :: fs) ρ₀ s₀ ρ σ m₁)
    (hb : f.phase.isBare = true) {culprit : Node} {message : String}
    (hs : m.step φ = m₁.finishFault culprit message) :
    Follows S fuel m φ (Lexical.fault culprit message σ) (Done fs ρ₀ s₀) := by
  obtain ⟨v, σ', he, hv, h'⟩ := h.fault culprit message
  rw [he]
  exact follows_finish hP h' hb hs hv

/-- The result of an operator ends the top frame. -/
theorem follows_operation (hP : Program S) (h : Stage (f :: fs) ρ₀ s₀ ρ σ m₁)
    (hb : f.phase.isBare = true) {r : Except String Value}
    (hr : ∀ v, r = .ok v → v.isData = true) (hs : m.step φ = m₁.finishOperation n r) :
    Follows S fuel m φ (operation n r σ) (Done fs ρ₀ s₀) := by
  cases r with
  | ok v => exact follows_finish hP h hb hs (Value.rename_of_isData (hr v rfl))
  | error message => exact follows_finishFault hP h hb hs

/-! ## Values that arrive -/

theorem Fit.keeps (h : Fit S m (.give w)) : Keeps S m.cells (m.cells.deref w) :=
  h.sorted.held.1.deref h.sorted.held.2

/-- What is read is neither an error nor a signal. -/
theorem Stage.isAbrupt_deref (hf : Fit S m (.give w)) (h : Stage fs ρ₀ s₀ ρ σ m)
    (hw : w.isAbrupt = false) : (m.cells.deref w).isAbrupt = false := by
  cases w with
  | reference c => exact h.reflects.plain (.inl (hf.sorted.reference c rfl))
  | _ => exact hw

/-- What is read is the same for both. -/
theorem read_rename (hf : Fit S m (.give w)) (h : Stage fs ρ₀ s₀ ρ σ m) :
    read (w.rename ρ) σ = some ((m.cells.deref w).rename ρ, σ) := by
  cases w with
  | reference c =>
    have hv := h.reflects.value (.inl (hf.sorted.reference c rfl))
    show some (σ.values.getD (ρ c) .undefined, σ) = _
    rw [Array.getD_eq_getD_getElem?, hv]
    rfl
  | _ => rfl

/-- The value that arrives is read. -/
theorem follows_read {k : Value → Run α} {Q : α × Store → Machine → Focus → Prop}
    (h : Stage fs ρ₀ s₀ ρ σ m)
    (hk : Keeps S m.cells (m.cells.deref w) →
      Follows S fuel m (.give w) (k ((m.cells.deref w).rename ρ) σ) Q) :
    Follows S fuel m (.give w) ((read (w.rename ρ) >>= k) σ) Q := by
  refine .of_fit fun hf => ?_
  have hbind : (read (w.rename ρ) >>= k) σ =
      (read (w.rename ρ) σ).bind fun p => k p.1 p.2 := rfl
  rw [hbind, read_rename hf h]
  exact hk hf.keeps

/-! ## Parts of nodes -/

theorem chainOf_cons (hφ : f.phase.isAccessed = false) : chainOf (f :: fs) = [] := by
  simp [chainOf, hφ]

/-- A node that no accessor is applied to is evaluated. -/
theorem follows_alone (hP : Program S) (hE : Simulates S fuel E) (h : Stage fs ρ₀ s₀ ρ σ m)
    (hc : chainOf fs = []) (hn : n.Scoped Γ) (ha : Agrees ρ₀ env s₀ Γ) {k : Value → Run α}
    {Q : α × Store → Machine → Focus → Prop}
    (hk : ∀ ρ' σ' m' w, Stage fs ρ₀ s₀ ρ' σ' m' → Extends ρ m.cells ρ' m'.cells →
      Follows S fuel m' (.give w) (k (w.rename ρ') σ') Q) :
    Follows S fuel m (.enter n) ((alone E env n >>= k) σ) Q := by
  have hclear : Clear Γ fs := by
    intro f hf
    rw [chainOf, List.map_eq_nil_iff] at hc
    simp [hc] at hf
  have hE' := hE h.rebase hclear hn (h.agrees ha)
  rw [hc] at hE'
  have halone : (alone E env n >>= k) σ = (E [] env n >>= fun r => k r.1) σ := by
    simp [alone]
  rw [halone]
  refine hE'.bind hP fun r σ' m' φ' hr => ?_
  obtain ⟨ρ', w, gs, rfl, hw, hans, hst⟩ := hr
  have hzero : r.2 = 0 := by
    have := hans.within
    rw [hc] at this
    exact Nat.le_zero.1 this
  rw [hzero] at hans
  obtain rfl := hans.eq_of_zero
  have := hk ρ' σ' m' w (h.trans hst) hst.since
  rwa [hw] at this

/-- The value of a node that no accessor is applied to is that of the whole. -/
theorem follows_tail (hP : Program S) (hE : Simulates S fuel E) (h : Stage fs ρ₀ s₀ ρ σ m)
    (hc : chainOf fs = []) (hn : n.Scoped Γ) (ha : Agrees ρ₀ env s₀ Γ)
    {Q : Value × Store → Machine → Focus → Prop}
    (hk : ∀ ρ' σ' m' w, Stage fs ρ₀ s₀ ρ' σ' m' →
      Follows S fuel m' (.give w) (some (w.rename ρ', σ')) Q) :
    Follows S fuel m (.enter n) (alone E env n σ) Q := by
  have hpure : alone E env n = alone E env n >>= pure := (bind_pure _).symm
  rw [hpure]
  exact follows_alone hP hE h hc hn ha fun ρ' σ' m' w hst _ => hk ρ' σ' m' w hst

/-- Errors and signals go outwards, and with another value the node goes on. -/
theorem follows_andThen (hP : Program S) (hE : Simulates S fuel E) (h : Stage fs ρ₀ s₀ ρ σ m)
    (hc : chainOf fs = []) (hn : n.Scoped Γ) (ha : Agrees ρ₀ env s₀ Γ) {k : Value → Run Value}
    {Q : Value × Store → Machine → Focus → Prop}
    (hout : ∀ ρ' σ' m' w, Stage fs ρ₀ s₀ ρ' σ' m' → w.isAbrupt = true →
      Follows S fuel m' (.give w) (some (w.rename ρ', σ')) Q)
    (hk : ∀ ρ' σ' m' w, Stage fs ρ₀ s₀ ρ' σ' m' → Extends ρ m.cells ρ' m'.cells →
      w.isAbrupt = false → Follows S fuel m' (.give w) (k (w.rename ρ') σ') Q) :
    Follows S fuel m (.enter n) (andThen E env n k σ) Q := by
  refine follows_alone hP hE h hc hn ha fun ρ' σ' m' w hst hx => ?_
  rw [Value.isAbrupt_rename]
  split
  · rename_i hab
    exact hout ρ' σ' m' w hst hab
  · rename_i hab
    exact hk ρ' σ' m' w hst hx (by simpa using hab)

end Lexical

end Steppable
