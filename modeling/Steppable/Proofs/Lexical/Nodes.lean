import Steppable.Proofs.Lexical.Simulation

/-!
# The nodes that are no accessors

Each kind of node is followed from its parts. A node with a frame is pushed, waits for one part after
the other, and ends; the interpreter does the same without a frame. Blocks are the only ones of these
with variables: their environment is that of the beginning with new cells, and when they end the
stacks of cells are again as they were.
-/

namespace Steppable

/-- Whether a frame in this phase waits for an operand: it adopts errors and signals, and has no
variables of its own. -/
def Phase.isOperand : Phase → Bool
  | .leftOperand | .rightOperand _ | .operand | .target | .assigned _ | .condition => true
  | _ => false

namespace Phase

variable {ψ : Phase}

theorem isBare_of_isOperand (h : ψ.isOperand = true) : ψ.isBare = true := by
  cases ψ <;> first | rfl | simp [isOperand] at h

theorem isAccessed_of_isOperand (h : ψ.isOperand = true) : ψ.isAccessed = false := by
  cases ψ <;> first | rfl | simp [isOperand] at h

end Phase

namespace Lexical

open Machine

variable {S : Node → Prop} {m m' : Machine} {φ : Focus} {fuel rest : Nat} {α : Type}
  {o : Option α} {Q : α → Machine → Focus → Prop} {f : Frame} {fs : List Frame}
  {ρ₀ ρ ρ' : Nat → Nat} {s₀ : Cells} {σ σ' : Store} {n c : Node} {Γ : Nat → Prop} {env : Env}
  {E : Evaluator} {v w : Value} {ψ : Phase}

/-! ## Entering -/

/-- A node that wants a frame gets it, unless it is too deep for that. -/
theorem follows_push (hP : Program S) (h : Stage fs ρ₀ s₀ ρ σ m)
    (hn : ∀ m : Machine, m.enter n = m.push n)
    (hk : ∀ m', Stage ({ node := n } :: fs) ρ₀ s₀ ρ σ m' → Follows S fuel m' .begin o Q) :
    Follows S (fuel + 1) m (.enter n) o Q := by
  refine .of_fit fun hfit => ?_
  by_cases hd : m.frames.length ≥ maxFrames
  · have hs : m.step (.enter n) =
        ((m.fault n tooDeep).2, .running (.give (m.fault n tooDeep).1)) :=
      (hn m).trans (if_pos hd)
    exact fun _ => .inl ⟨1, _, _, _, .single hs, rfl, rfl⟩
  · have hs : m.step (.enter n) =
        ({ m with frames := { node := n } :: m.frames }, .running .begin) := by
      have hq := quiet_push m n hd
      rw [hfit.quiet] at hq
      exact (hn m).trans hq
    refine .step_succ hP hs (hk _ ?_)
    exact ⟨congrArg _ h.frames, h.reflects, h.lastFault, h.next, h.since, h.stack_eq⟩

/-- A node that begins with one of its parts. -/
theorem follows_descend (hP : Program S) (h : Stage fs ρ₀ s₀ ρ σ m)
    (hn : ∀ m : Machine, m.enter n = m.push n) (hb : ∀ m : Machine, m.begin n = m.await ψ c)
    (hk : ∀ m', Stage ({ node := n, phase := ψ } :: fs) ρ₀ s₀ ρ σ m' →
      Follows S fuel m' (.enter c) o Q) : Follows S (fuel + 1) m (.enter n) o Q := by
  refine follows_push hP h hn fun m₁ h₁ => ?_
  have hs : m₁.step .begin = m₁.await ψ c := by
    rw [Machine.step, h₁.frames]
    exact hb m₁
  exact follows_await hP h₁ hs fun m₂ h₂ _ => hk m₂ h₂

theorem receive_of_isOperand (hφ : f.phase.isOperand = true) (w : Value) :
    m.receive f w = if w.isAbrupt then m.finish w else m.receivePlain f w := by
  unfold receive
  cases hp : f.phase <;> first | rfl | simp [hp, Phase.isOperand] at hφ

/-- An operand is evaluated; an error or a signal is the result of the node. -/
theorem follows_operand (hP : Program S) (hE : Simulates S fuel E)
    (h : Stage (f :: fs) ρ₀ s₀ ρ σ m) (hφ : f.phase.isOperand = true) (hc : c.Scoped Γ)
    (ha : Agrees ρ₀ env s₀ Γ) {k : Value → Run Value}
    (hk : ∀ ρ' σ' m' w, Stage (f :: fs) ρ₀ s₀ ρ' σ' m' → Extends ρ m.cells ρ' m'.cells →
      w.isAbrupt = false → m'.step (.give w) = m'.receivePlain f w →
      Follows S fuel m' (.give w) (k (w.rename ρ') σ') (Done fs ρ₀ s₀)) :
    Follows S fuel m (.enter c) (andThen E env c k σ) (Done fs ρ₀ s₀) := by
  refine follows_andThen hP hE h (chainOf_cons (Phase.isAccessed_of_isOperand hφ)) hc ha ?_ ?_
  · intro ρ' σ' m' w h' hab
    refine follows_finish hP h' (Phase.isBare_of_isOperand hφ) ?_ rfl
    rw [step_give h', receive_of_isOperand hφ, if_pos hab]
  · intro ρ' σ' m' w h' hx hab
    refine hk ρ' σ' m' w h' hx hab ?_
    rw [step_give h', receive_of_isOperand hφ, if_neg (by simp [hab])]

/-! ## Nodes without a frame -/

theorem follows_here (hP : Program S) (h : Stage fs ρ₀ s₀ ρ σ m)
    (hs : m.step φ = (m, .running (.give w))) (hw : w.rename ρ = v) :
    Follows S fuel m φ (some (v, σ)) (Done fs ρ₀ s₀) :=
  .step hP hs (.here ⟨ρ, w, rfl, hw, h⟩)

theorem follows_fault (hP : Program S) (h : Stage fs ρ₀ s₀ ρ σ m) {message : String}
    (hs : m.step φ = ((m.fault n message).2, .running (.give (m.fault n message).1))) :
    Follows S fuel m φ (Lexical.fault n message σ) (Done fs ρ₀ s₀) := by
  obtain ⟨v, σ', he, hv, h'⟩ := h.fault n message
  rw [he]
  exact .step hP hs (.here ⟨ρ, _, rfl, hv, h'⟩)

/-- A variable that is in scope. -/
theorem follows_variable (hP : Program S) (h : Stage fs ρ₀ s₀ ρ σ m) {d : Declaration}
    (ha : Agrees ρ₀ env s₀ Γ) (hd : Γ d.id)
    (hn : ∀ m : Machine, m.enter n = m.giveVariable n d) :
    Follows S fuel m (.enter n) (variableOf env n d σ) (Done fs ρ₀ s₀) := by
  obtain ⟨c, hc, henv⟩ := h.agrees ha d hd
  have hs : m.step (.enter n) = (m, .running (.give (.reference c))) := by
    show m.enter n = _
    rw [hn, giveVariable, hc]
    rfl
  rw [variableOf, henv]
  exact follows_here hP h hs rfl

/-- A function is made, with the cells of its free variables, and stored in its own variable. -/
theorem follows_literal (hP : Program S) (h : Stage fs ρ₀ s₀ ρ σ m) {t : Tag} {code : Lambda}
    (ha : Agrees ρ₀ env s₀ Γ) (hfree : ∀ d ∈ code.free, Γ d.id) (hname : ∀ d ∈ code.name, Γ d.id) :
    Follows S fuel m (.enter (.function t code)) (literal env (.function t code) code σ)
      (Done fs ρ₀ s₀) := by
  obtain ⟨captures, s₁, hall, hcap, hr₁, hx₁, hst₁⟩ :=
    capture_captureAll h.reflects (h.agrees ha) hfree
  have hv : (Value.function ⟨m.next, code, captures⟩).rename ρ =
      .function ⟨σ.next, code, captures.map fun p => (p.1, ρ p.2)⟩ := by
    rw [h.next]
    rfl
  rw [literal, hcap]
  cases hd : code.name with
  | none =>
    have hs : m.step (.enter (.function t code)) = ({ m with cells := s₁, next := m.next + 1 },
        .running (.give (.function ⟨m.next, code, captures⟩))) := by
      simp only [Machine.step, Machine.enter, giveFunction, hall, hd, give]
    refine .step hP hs (.here ⟨ρ, _, rfl, hv, h.frames, hr₁, h.lastFault, ?_, h.since.trans hx₁, ?_⟩)
    · exact congrArg (· + 1) h.next
    · exact fun d => (hst₁ d).trans (h.stack_eq d)
  | some d =>
    obtain ⟨c, hc, henv⟩ := (h.agrees ha).extend hx₁ hst₁ d (hname d hd)
    have hs : m.step (.enter (.function t code)) =
        ({ m with cells := s₁.set c (.function ⟨m.next, code, captures⟩), next := m.next + 1 },
          .running (.give (.function ⟨m.next, code, captures⟩))) := by
      simp only [Machine.step, Machine.enter, giveFunction, hall, hd, hc, give]
    have hlive : s₁.Live c := Cells.live_of_find hc
    dsimp only
    rw [henv]
    refine .of_fit fun hfit => ?_
    have hC := captureCustody_lawful (K := fun _ => False) hP
    obtain ⟨hsound, -⟩ := Custody.turns_captureAll hC m.cells code.free hfit.sorted.held.1.cells
    rw [hall] at hsound
    have hkeeps : Keeps S s₁ (.function ⟨m.next, code, captures⟩) :=
      hC.make m.next hfit.sorted.held.1.cells.1 hfit.sorted.held.2 hall
    obtain ⟨hr₂, hx₂⟩ := hr₁.set hsound hlive hkeeps rfl
    rw [hv] at hr₂
    refine .step hP hs (.here ⟨ρ, _, rfl, hv, h.frames, hr₂, h.lastFault, ?_,
      (h.since.trans hx₁).trans hx₂, ?_⟩)
    · exact congrArg (· + 1) h.next
    · exact fun d => (hst₁ d).trans (h.stack_eq d)

/-! ## Operators -/

/-- The right operand of `&&` and `||` is the result as it is. -/
theorem follows_rightOperand (hP : Program S) (hE : Simulates S fuel E) {t : Tag} {k : Connective}
    {l r : Node} {x : Value}
    (h : Stage ({ node := .binary t (.connective k) l r, phase := .rightOperand x } :: fs) ρ₀ s₀ ρ σ
      m) (ha : Agrees ρ₀ env s₀ Γ) (hr : r.Scoped Γ) :
    Follows S fuel m (.enter r) (andThen E env r read σ) (Done fs ρ₀ s₀) := by
  refine follows_operand hP hE h rfl hr ha fun ρ₁ σ₁ m₁ w h₁ _ _ hs => .of_fit fun hfit => ?_
  rw [read_rename hfit h₁]
  exact follows_finish hP h₁ rfl hs rfl

/-- Every other operator is applied to both operands; the left one is as it was when it was read. -/
theorem follows_strict (hP : Program S) (hE : Simulates S fuel E) {t : Tag} {op : BinaryOp}
    {l r : Node} {x : Value} (hop : op.isLogical = false)
    (h : Stage ({ node := .binary t op l r, phase := .rightOperand x } :: fs) ρ₀ s₀ ρ σ m)
    (ha : Agrees ρ₀ env s₀ Γ) (hr : r.Scoped Γ) (hx : Keeps S m.cells x) :
    Follows S fuel m (.enter r) (andThen E env r (fun y => do
      let y ← read y
      operation (.binary t op l r) (op.apply (x.rename ρ) y)) σ) (Done fs ρ₀ s₀) := by
  refine follows_operand hP hE h rfl hr ha fun ρ₁ σ₁ m₁ w h₁ hext _ hs => ?_
  refine follows_read h₁ fun hy => ?_
  rw [← hext.rename hx, Value.apply_binary_rename ρ₁ op (Value.isReference_of_kept hx)
    (Value.isReference_of_kept hy)]
  refine follows_operation hP h₁ rfl (fun v hv => isData_of_apply_binary hv) ?_
  rw [hs]
  simp only [receivePlain, hop, Bool.false_eq_true, if_false]

section

variable (hP : Program S) (hE : Simulates S fuel E) (h : Stage fs ρ₀ s₀ ρ σ m)
  (ha : Agrees ρ₀ env s₀ Γ)

include hP hE h ha

theorem follows_binary {t : Tag} {op : BinaryOp} {l r : Node}
    (hn : (Node.binary t op l r).Scoped Γ) :
    Follows S (fuel + 1) m (.enter (.binary t op l r)) (simple E env rest (.binary t op l r) σ)
      (Done fs ρ₀ s₀) := by
  have hl : l.Scoped Γ := hn.of_mem rfl (by simp [Node.children])
  have hr : r.Scoped Γ := hn.of_mem rfl (by simp [Node.children])
  refine follows_descend hP h (fun _ => rfl) (fun _ => rfl) fun m₁ h₁ => ?_
  refine follows_operand hP hE h₁ rfl hl ha fun ρ₂ σ₂ m₂ w h₂ _ _ hs => ?_
  refine follows_read h₂ fun hx => ?_
  cases op with
  | arith op =>
    refine follows_await hP h₂ hs fun m₃ h₃ hcells => ?_
    exact follows_strict hP hE rfl h₃ ha hr (hcells ▸ hx)
  | comparison op =>
    refine follows_await hP h₂ hs fun m₃ h₃ hcells => ?_
    exact follows_strict hP hE rfl h₃ ha hr (hcells ▸ hx)
  | connective op =>
    cases op with
    | and =>
      simp only [receivePlain] at hs
      dsimp only
      rw [Value.toBoolean_rename]
      split
      · rename_i hb
        rw [if_pos hb] at hs
        exact follows_await hP h₂ hs fun m₃ h₃ _ => follows_rightOperand hP hE h₃ ha hr
      · rename_i hb
        rw [if_neg hb] at hs
        exact follows_finish hP h₂ rfl hs rfl
    | or =>
      simp only [receivePlain] at hs
      dsimp only
      rw [Value.toBoolean_rename]
      split
      · rename_i hb
        rw [if_pos hb] at hs
        exact follows_finish hP h₂ rfl hs rfl
      · rename_i hb
        rw [if_neg hb] at hs
        exact follows_await hP h₂ hs fun m₃ h₃ _ => follows_rightOperand hP hE h₃ ha hr

theorem follows_unary {t : Tag} {op : UnaryOp} {x : Node} (hn : (Node.unary t op x).Scoped Γ) :
    Follows S (fuel + 1) m (.enter (.unary t op x)) (simple E env rest (.unary t op x) σ)
      (Done fs ρ₀ s₀) := by
  refine follows_descend hP h (fun _ => rfl) (fun _ => rfl) fun m₁ h₁ => ?_
  refine follows_operand hP hE h₁ rfl (hn.of_mem rfl (by simp [Node.children])) ha
    fun ρ₂ σ₂ m₂ w h₂ _ _ hs => ?_
  refine follows_read h₂ fun hx => ?_
  rw [Value.apply_unary_rename ρ₂ op (Value.isReference_of_kept hx)]
  exact follows_operation hP h₂ rfl (fun v hv => isData_of_apply_unary hv) hs

theorem follows_giveBack {t : Tag} {x : Node} (hn : (Node.giveBack t x).Scoped Γ) :
    Follows S (fuel + 1) m (.enter (.giveBack t x)) (simple E env rest (.giveBack t x) σ)
      (Done fs ρ₀ s₀) := by
  refine follows_descend hP h (fun _ => rfl) (fun _ => rfl) fun m₁ h₁ => ?_
  refine follows_operand hP hE h₁ rfl (hn.of_mem rfl (by simp [Node.children])) ha
    fun ρ₂ σ₂ m₂ w h₂ _ _ hs => ?_
  exact follows_read h₂ fun _ => follows_finish hP h₂ rfl hs rfl

theorem follows_choice {t : Tag} {b : Bool} {x y z : Node} (hn : (Node.choice t b x y z).Scoped Γ) :
    Follows S (fuel + 1) m (.enter (.choice t b x y z)) (simple E env rest (.choice t b x y z) σ)
      (Done fs ρ₀ s₀) := by
  refine follows_descend hP h (fun _ => rfl) (fun _ => rfl) fun m₁ h₁ => ?_
  refine follows_operand hP hE h₁ rfl (hn.of_mem rfl (by simp [Node.children])) ha
    fun ρ₂ σ₂ m₂ w h₂ _ _ hs => ?_
  refine follows_read h₂ fun _ => ?_
  rw [Value.toBoolean_rename]
  refine follows_await hP h₂ hs fun m₃ h₃ _ => ?_
  have hbranch : (if (m₂.cells.deref w).toBoolean then y else z).Scoped Γ := by
    split
    · exact hn.of_mem rfl (by simp [Node.children])
    · exact hn.of_mem rfl (by simp [Node.children])
  refine follows_tail hP hE h₃ (chainOf_cons rfl) hbranch ha fun ρ₄ σ₄ m₄ w h₄ => ?_
  exact follows_finish hP h₄ rfl (step_give h₄ w) rfl

theorem follows_guarded {t : Tag} {x y : Node} (hn : (Node.guarded t x y).Scoped Γ) :
    Follows S (fuel + 1) m (.enter (.guarded t x y)) (simple E env rest (.guarded t x y) σ)
      (Done fs ρ₀ s₀) := by
  refine follows_descend hP h (fun _ => rfl) (fun _ => rfl) fun m₁ h₁ => ?_
  refine follows_operand hP hE h₁ rfl (hn.of_mem rfl (by simp [Node.children])) ha
    fun ρ₂ σ₂ m₂ w h₂ _ _ hs => ?_
  refine follows_read h₂ fun _ => ?_
  rw [Value.toBoolean_rename]
  simp only [receivePlain] at hs
  split
  · rename_i hb
    rw [if_pos hb] at hs
    refine follows_await hP h₂ hs fun m₃ h₃ _ => ?_
    refine follows_tail hP hE h₃ (chainOf_cons rfl) (hn.of_mem rfl (by simp [Node.children])) ha
      fun ρ₄ σ₄ m₄ w h₄ => ?_
    exact follows_finish hP h₄ rfl (step_give h₄ w) rfl
  · rename_i hb
    rw [if_neg hb] at hs
    exact follows_finish hP h₂ rfl hs rfl

end

/-! ## Assignments -/

/-- A live cell is written to. -/
theorem Stage.set (hf : Fit S m φ) (h : Stage fs ρ₀ s₀ ρ σ m) {cell : Nat} {x : Value}
    (hc : m.cells.Live cell) (hx : Keeps S m.cells x) (hplain : x.isAbrupt = false) :
    Stage fs ρ₀ s₀ ρ { σ with values := σ.values.setIfInBounds (ρ cell) (x.rename ρ) }
      { m with cells := m.cells.set cell x } := by
  obtain ⟨hr, hext⟩ := h.reflects.set hf.sorted.held.1.cells hc hx hplain
  exact ⟨h.frames, hr, h.lastFault, h.next, h.since.trans hext, h.stack_eq⟩

section

variable (hP : Program S) (hE : Simulates S fuel E) (h : Stage fs ρ₀ s₀ ρ σ m)
  (ha : Agrees ρ₀ env s₀ Γ)

include hP hE h ha

theorem follows_assign {t : Tag} {target value : Node} (hn : (Node.assign t target value).Scoped Γ) :
    Follows S (fuel + 1) m (.enter (.assign t target value))
      (simple E env rest (.assign t target value) σ) (Done fs ρ₀ s₀) := by
  refine follows_descend hP h (fun _ => rfl) (fun _ => rfl) fun m₁ h₁ => ?_
  refine follows_operand hP hE h₁ rfl (hn.of_mem rfl (by simp [Node.children])) ha
    fun ρ₂ σ₂ m₂ w h₂ _ _ hs => ?_
  cases w with
  | reference cell =>
    refine .of_fit fun hfit => ?_
    obtain ⟨d, hd⟩ := hfit.sorted.reference cell rfl
    refine follows_await hP h₂ hs fun m₃ h₃ hcells => ?_
    refine follows_operand hP hE h₃ rfl (hn.of_mem rfl (by simp [Node.children])) ha
      fun ρ₄ σ₄ m₄ y h₄ hext hab hs₄ => ?_
    refine follows_read h₄ fun hy => .of_fit fun hfit₄ => ?_
    -- The variable to assign to is where it was, under the same name.
    have hlive₃ : m₃.cells.Live cell := .inl ⟨d, by rw [hcells]; exact hd⟩
    have hname : ρ₂ cell = ρ₄ cell := (hext.same hlive₃).symm
    rw [hname]
    have hset := h₄.set hfit₄ (hext.live hlive₃) hy (h₄.isAbrupt_deref hfit₄ hab)
    exact follows_finish hP hset rfl hs₄ rfl
  | _ => exact follows_finishFault hP h₂ rfl hs

theorem follows_adjust {t : Tag} {change : Adjustment} {x : Node}
    (hn : (Node.adjust t change x).Scoped Γ) :
    Follows S (fuel + 1) m (.enter (.adjust t change x)) (simple E env rest (.adjust t change x) σ)
      (Done fs ρ₀ s₀) := by
  refine follows_descend hP h (fun _ => rfl) (fun _ => rfl) fun m₁ h₁ => ?_
  refine follows_operand hP hE h₁ rfl (hn.of_mem rfl (by simp [Node.children])) ha
    fun ρ₂ σ₂ m₂ w h₂ _ _ hs => ?_
  cases w with
  | reference cell =>
    refine .of_fit fun hfit => ?_
    have hlive : m₂.cells.Live cell := .inl (hfit.sorted.reference cell rfl)
    refine follows_read h₂ fun _ => ?_
    rw [Value.toNumber_rename]
    have hnew : Keeps S m₂.cells (.ofNumber (if change.increases
        then (m₂.cells.get cell).toNumber + 1 else (m₂.cells.get cell).toNumber - 1)) := trivial
    exact follows_finish hP (h₂.set hfit hlive hnew rfl) rfl hs rfl
  | _ => exact follows_finishFault hP h₂ rfl hs

end

/-! ## Loops -/

theorem follows_afterBody (hP : Program S) {t : Tag} {x : Bool} {condition body : Node}
    (h : Stage ({ node := .loop t x condition body, phase := .body } :: fs) ρ₀ s₀ ρ σ m)
    {again : Run Value}
    (hk : ∀ m', Stage ({ node := .loop t x condition body, phase := .condition } :: fs) ρ₀ s₀ ρ σ m' →
      Follows S fuel m' (.enter condition) (again σ) (Done fs ρ₀ s₀)) :
    Follows S fuel m (.give w) (afterBody (w.rename ρ) again σ) (Done fs ρ₀ s₀) := by
  have hs := step_give h w
  cases w with
  | signal kind culprit v =>
    cases kind with
    | «break» => exact follows_finish hP h rfl hs rfl
    | «continue» => exact follows_await hP h hs fun m' h' _ => hk m' h'
    | «return» => exact follows_finish hP h rfl hs rfl
  | error e => exact follows_finish hP h rfl hs rfl
  | _ => exact follows_await hP h hs fun m' h' _ => hk m' h'

/-- The rounds of a loop from the condition on. -/
theorem follows_rounds (hP : Program S) {t : Tag} {x : Bool} {condition body : Node}
    (hE : Simulates S fuel E) (ha : Agrees ρ₀ env s₀ Γ) (hc : condition.Scoped Γ)
    (hb : body.Scoped Γ) {j : Nat} (hj : j ≤ fuel)
    (h : Stage ({ node := .loop t x condition body, phase := .condition } :: fs) ρ₀ s₀ ρ σ m) :
    Follows S j m (.enter condition) (rounds E env condition body j σ) (Done fs ρ₀ s₀) := by
  induction j generalizing ρ σ m with
  | zero => exact .empty
  | succ j ih =>
    refine follows_operand hP (hE.less hj) h rfl hc ha fun ρ₁ σ₁ m₁ w h₁ _ _ hs => ?_
    refine follows_read h₁ fun _ => ?_
    rw [Value.toBoolean_rename]
    simp only [receivePlain] at hs
    split
    · rename_i htrue
      rw [if_pos htrue] at hs
      refine follows_await_succ hP h₁ hs fun m₂ h₂ _ => ?_
      refine follows_alone hP (hE.less (Nat.le_of_succ_le hj)) h₂ (chainOf_cons rfl) hb ha
        fun ρ₃ σ₃ m₃ w h₃ _ => ?_
      exact follows_afterBody hP h₃ fun m₄ h₄ => ih (Nat.le_of_succ_le hj) h₄
    · rename_i hfalse
      rw [if_neg hfalse] at hs
      exact follows_finish hP h₁ rfl hs rfl

theorem follows_loop (hP : Program S) (hE : Simulates S fuel E) (h : Stage fs ρ₀ s₀ ρ σ m)
    (ha : Agrees ρ₀ env s₀ Γ) {t : Tag} {bodyFirst : Bool} {condition body : Node}
    (hn : (Node.loop t bodyFirst condition body).Scoped Γ) :
    Follows S (fuel + 1) m (.enter (.loop t bodyFirst condition body))
      (simple E env fuel (.loop t bodyFirst condition body) σ) (Done fs ρ₀ s₀) := by
  have hc : condition.Scoped Γ := hn.of_mem rfl (by simp [Node.children])
  have hb : body.Scoped Γ := hn.of_mem rfl (by simp [Node.children])
  cases bodyFirst with
  | true =>
    refine follows_descend hP h (fun _ => rfl) (fun _ => rfl) fun m₁ h₁ => ?_
    refine follows_alone hP hE h₁ (chainOf_cons rfl) hb ha fun ρ₂ σ₂ m₂ w h₂ _ => ?_
    refine follows_afterBody hP h₂ fun m₃ h₃ => ?_
    exact follows_rounds hP hE ha hc hb (Nat.le_refl fuel) h₃
  | false =>
    refine follows_descend hP h (fun _ => rfl) (fun _ => rfl) fun m₁ h₁ => ?_
    exact follows_rounds hP hE ha hc hb (Nat.le_refl fuel) h₁

/-! ## Blocks -/

/-- The statements of a block from here on; at the end its variables end too. -/
theorem follows_statements (hP : Program S) (hE : Simulates S fuel E) {t : Tag}
    {all : List Node} {locals : List Declaration} {ρ₁ : Nat → Nat} {s₁ : Cells}
    (hx : Extends ρ₀ s₀ ρ₁ s₁) (hbelow : ∀ d, s₁.below locals d = s₀.stack d)
    (ha : Agrees ρ₁ env s₁ Γ) {ss : List Node} (hss : ∀ s ∈ ss, s.Scoped Γ) {todo : List Node}
    {last : Value} {m₁ : Machine}
    (h : Stage ({ node := .block t all locals, phase := .statement todo } :: fs) ρ₁ s₁ ρ σ m₁)
    (hp : m₁.cells.Partitioned) (hs : m.step φ = m₁.nextStatement last ss) :
    Follows S fuel m φ (statements E env ss (last.rename ρ) σ) (Done fs ρ₀ s₀) := by
  induction ss generalizing ρ σ m φ todo last m₁ with
  | nil => exact follows_leave hP h hx hbelow hp hs fun _ h' => follows_done h' rfl
  | cons s ss ih =>
    refine follows_await hP h hs fun m₂ h₂ _ => ?_
    refine follows_andThen hP hE h₂ (chainOf_cons rfl) (hss s (by simp)) ha ?_ ?_
    · intro ρ₃ σ₃ m₃ w h₃ hab
      refine .of_fit fun hfit => ?_
      have hs₃ : m₃.step (.give w) = m₃.finish w := by
        rw [step_give h₃]
        exact if_pos hab
      exact follows_leave hP h₃ hx hbelow hfit.sorted.held.1.cells.1.1 hs₃ fun _ h' =>
        follows_done h' rfl
    · intro ρ₃ σ₃ m₃ w h₃ _ hab
      refine follows_read h₃ fun _ => .of_fit fun hfit => ?_
      refine ih (fun s' hs' => hss s' (by simp [hs'])) h₃ hfit.sorted.held.1.cells.1.1 ?_
      rw [step_give h₃]
      exact if_neg (by simp [hab])

theorem follows_block (hP : Program S) (hE : Simulates S fuel E) (h : Stage fs ρ₀ s₀ ρ σ m)
    (ha : Agrees ρ₀ env s₀ Γ) {t : Tag} {ss : List Node} {locals : List Declaration}
    (hn : (Node.block t ss locals).Scoped Γ) :
    Follows S (fuel + 1) m (.enter (.block t ss locals))
      (simple E env rest (.block t ss locals) σ) (Done fs ρ₀ s₀) := by
  have hss : ∀ s ∈ ss, s.Scoped fun k => Γ k ∨ idsOf locals k := by
    cases hn with
    | neutral hneutral => simp [Node.isNeutral] at hneutral
    | block hss => exact hss
  refine follows_push hP h (fun _ => rfl) fun m₁ h₁ => .of_fit fun hfit => ?_
  have hsound : Sound S m₁.cells := hfit.sorted.held.1.cells
  have hnone : ∀ v ∈ ([] : List Value), Keeps S m₁.cells v ∧ v.isAbrupt = false := by simp
  obtain ⟨env', ρ₂, values, hb, hr, hx, ha'⟩ :=
    bindAll_bindParams hP locals hsound h₁.reflects (h₁.agrees ha) hnone
  rw [← registerAll_eq] at hr hx ha'
  have hC := captureCustody_lawful (K := fun _ => False) hP
  have hnode : S (.block t ss locals) := (hfit.sorted.held.1.top h₁.frames).node
  obtain ⟨hsound', -⟩ :=
    Custody.turns_registerAll hC m₁.cells (fun d hd => ⟨_, hnode, hd⟩) hsound
  have hbelow : ∀ d, (m₁.cells.registerAll locals).below locals d = s₀.stack d := by
    intro d
    have hd := Cells.below_registerAll m₁.cells locals [] d
    rw [List.append_nil, Cells.below_nil] at hd
    exact hd.trans (h₁.stack_eq d)
  let m₂ : Machine := { m₁ with
    frames := { node := .block t ss locals, phase := .statement ss } :: fs
    cells := m₁.cells.registerAll locals }
  have hs : m₁.step .begin = m₂.nextStatement .undefined ss := by
    simp only [Machine.step, h₁.frames, begin, m₂]
  have h₂ : Stage ({ node := .block t ss locals, phase := .statement ss } :: fs) ρ₂
      (m₁.cells.registerAll locals) ρ₂ { σ with values := values } m₂ :=
    ⟨rfl, hr, h₁.lastFault, h₁.next, .refl _ _, fun _ => rfl⟩
  have hrun : simple E env rest (.block t ss locals) σ =
      (bindAll env locals [] σ).bind fun p => statements E p.1 ss .undefined p.2 := rfl
  rw [hrun, show bindAll env locals [] σ = _ from hb]
  exact follows_statements hP hE (h₁.since.trans hx) hbelow ha' hss h₂ hsound'.1.1 hs

/-! ## All of them -/

theorem follows_jump (hP : Program S) (h : Stage fs ρ₀ s₀ ρ σ m) {t : Tag} {k : Jump} :
    Follows S (fuel + 1) m (.enter (.jump t k)) (simple E env rest (.jump t k) σ)
      (Done fs ρ₀ s₀) := by
  refine follows_push hP h (fun _ => rfl) fun m₁ h₁ => ?_
  have hs : m₁.step .begin = m₁.finish (.signal k (.jump t k) .undefined) := by
    rw [Machine.step, h₁.frames]
    rfl
  exact follows_finish hP h₁ rfl hs rfl

/-- **The machine follows the interpreter on every node that is no accessor.** -/
theorem follows_simple (hP : Program S) (hE : Simulates S fuel E) (h : Stage fs ρ₀ s₀ ρ σ m)
    (ha : Agrees ρ₀ env s₀ Γ) (hn : n.Scoped Γ) (hacc : n.isAccessor = false) :
    Follows S (fuel + 1) m (.enter n) (simple E env fuel n σ) (Done fs ρ₀ s₀) := by
  cases n with
  | constant t v =>
    refine .of_fit fun hfit => ?_
    exact follows_here hP h rfl (Value.rename_of_isData (hP.literal hfit.sorted.held.2))
  | nop t => exact follows_here hP h rfl rfl
  | invalid t message => exact follows_fault hP h rfl
  | declare t d =>
    cases hn with
    | neutral hneutral => simp [Node.isNeutral] at hneutral
    | declare hd => exact follows_variable hP h ha hd fun _ => rfl
  | var t d =>
    cases hn with
    | neutral hneutral => simp [Node.isNeutral] at hneutral
    | var hd => exact follows_variable hP h ha hd fun _ => rfl
  | function t code =>
    cases hn with
    | neutral hneutral => simp [Node.isNeutral] at hneutral
    | function hfree hname _ => exact follows_literal hP h ha hfree hname
  | binary t op l r => exact follows_binary hP hE h ha hn
  | unary t op x => exact follows_unary hP hE h ha hn
  | assign t target value => exact follows_assign hP hE h ha hn
  | adjust t change x => exact follows_adjust hP hE h ha hn
  | choice t b x y z => exact follows_choice hP hE h ha hn
  | guarded t x y => exact follows_guarded hP hE h ha hn
  | loop t x c b => exact follows_loop hP hE h ha hn
  | block t ss locals => exact follows_block hP hE h ha hn
  | jump t k => exact follows_jump hP h
  | giveBack t x => exact follows_giveBack hP hE h ha hn
  | name | member | index | call => simp [Node.isAccessor] at hacc

end Lexical

end Steppable
