import Steppable.Proofs.Machine.Schedule

/-!
# Where evaluation stops is all that breakpoints decide

Breakpoints are looked at only when a frame is pushed. Every other part of a step does the same
whatever they are, and the push differs only in whether the machine stops before the node begins
(`step_quiet`).
-/

namespace Steppable.Machine

/-- The outcome of a step with other stops. -/
def restop (b : Breakpoints) (stopNext : Bool) (r : Machine × Progress) : Machine × Progress :=
  (r.1.withStops b stopNext, r.2)

section

variable (m : Machine) (b : Breakpoints) (s : Bool)

@[simp]
theorem withStops_cells : (m.withStops b s).cells = m.cells := rfl

@[simp]
theorem withStops_frames : (m.withStops b s).frames = m.frames := rfl

@[simp]
theorem withStops_host : (m.withStops b s).host = m.host := rfl

@[simp]
theorem withStops_links : (m.withStops b s).links = m.links := rfl

@[simp]
theorem withStops_withStops (b' : Breakpoints) (s' : Bool) :
    (m.withStops b s).withStops b' s' = m.withStops b' s' := rfl

/-! ## Parts of a step -/

@[simp]
theorem finish_withStops (v : Value) : (m.withStops b s).finish v = restop b s (m.finish v) := by
  unfold finish
  rw [withStops_frames]
  split <;> rfl

@[simp]
theorem finishFault_withStops (n : Node) (message : String) :
    (m.withStops b s).finishFault n message = restop b s (m.finishFault n message) :=
  finish_withStops (m.fault n message).2 b s (m.fault n message).1

@[simp]
theorem finishOperation_withStops (n : Node) (r : Except String Value) :
    (m.withStops b s).finishOperation n r = restop b s (m.finishOperation n r) := by
  cases r with
  | ok v => exact finish_withStops m b s v
  | error message => exact finishFault_withStops m b s n message

@[simp]
theorem await_withStops (φ : Phase) (n : Node) :
    (m.withStops b s).await φ n = restop b s (m.await φ n) := by
  unfold await
  rw [withStops_frames]
  split <;> rfl

@[simp]
theorem giveVariable_withStops (n : Node) (d : Declaration) :
    (m.withStops b s).giveVariable n d = restop b s (m.giveVariable n d) := by
  unfold giveVariable
  rw [withStops_cells]
  split <;> rfl

@[simp]
theorem giveFunction_withStops (n : Node) (code : Lambda) :
    (m.withStops b s).giveFunction n code = restop b s (m.giveFunction n code) := by
  unfold giveFunction
  rw [withStops_cells]
  split
  · rfl
  · dsimp only
    split
    · rfl
    · split <;> rfl

@[simp]
theorem finishResolved_withStops (v : Value) :
    (m.withStops b s).finishResolved v = restop b s (m.finishResolved v) := by
  unfold finishResolved
  rw [withStops_frames]
  split <;> exact finish_withStops m b s _

@[simp]
theorem setResult_withStops (k : Nat) (v : Value) :
    (m.withStops b s).setResult k v = (m.setResult k v).withStops b s := rfl

@[simp]
theorem addArgument_withStops (k : Nat) (v : Value) :
    (m.withStops b s).addArgument k v = (m.addArgument k v).withStops b s := rfl

theorem setFault_withStops (k : Nat) (message : String) :
    (m.withStops b s).setFault k message =
      ((m.setFault k message).1, (m.setFault k message).2.withStops b s) := by
  unfold setFault
  rw [withStops_frames]
  split <;> rfl

theorem prepare_withStops (r : Host.Rule) (k : Nat) :
    (m.withStops b s).prepare r k =
      ((m.prepare r k).1, (m.prepare r k).2.1, (m.prepare r k).2.2.withStops b s) := by
  unfold prepare gather
  split
  · rw [withStops_frames]
    split <;> rfl
  · rfl

theorem answer_withStops (r : Host.Rule) (k : Nat) (as : List Value) :
    (m.withStops b s).answer r k as =
      ((m.answer r k as).1, (m.answer r k as).2.withStops b s) := by
  have hq : ∀ (record : Host.Record) (calls : List Host.Call),
      ({ m.withStops b s with record, calls } : Machine) =
        ({ m with record, calls } : Machine).withStops b s := fun _ _ => rfl
  unfold answer
  dsimp only
  rw [withStops_links]
  rw [show (m.withStops b s).record = m.record from rfl,
    show (m.withStops b s).calls = m.calls from rfl, hq]
  split
  · rfl
  · rfl
  · rw [setFault_withStops]
  · rw [setFault_withStops]
  · rfl

@[simp]
theorem consult_withStops (n : Node) (rules : List Host.Rule) :
    consult n rules (m.withStops b s) = restop b s (consult n rules m) := by
  induction rules generalizing m with
  | nil => exact finishFault_withStops m b s n _
  | cons r rules ih =>
    rw [consult, consult, withStops_links]
    split
    · exact ih m
    · rename_i k _
      rw [prepare_withStops]
      rcases m.prepare r k with ⟨as, missing, m₁⟩
      cases missing with
      | some a => exact await_withStops m₁ b s _ a
      | none =>
        dsimp only
        rw [answer_withStops]
        rcases m₁.answer r k as with ⟨w, m₂⟩
        cases w with
        | some w => exact finishResolved_withStops m₂ b s w
        | none => exact ih m₂

@[simp]
theorem nextArgument_withStops (callee : Closure) (done : List Value) (as : List Node) :
    (m.withStops b s).nextArgument callee done as =
      restop b s (m.nextArgument callee done as) := by
  cases as with
  | cons a as => exact await_withStops m b s _ a
  | nil => exact await_withStops { m with cells := activate m.cells callee done } b s _ _

@[simp]
theorem call_withStops (n : Node) (callee : Closure) :
    (m.withStops b s).call n callee = restop b s (m.call n callee) := by
  unfold call
  rw [withStops_frames]
  exact nextArgument_withStops { m with frames := { node := n } :: _ } b s callee [] n.arguments

@[simp]
theorem nextStatement_withStops (last : Value) (ss : List Node) :
    (m.withStops b s).nextStatement last ss = restop b s (m.nextStatement last ss) := by
  cases ss with
  | nil => exact finish_withStops m b s last
  | cons n rest => exact await_withStops m b s _ n

/-! ## The three kinds of steps -/

theorem begin_withStops (n : Node) : (m.withStops b s).begin n = restop b s (m.begin n) := by
  cases n with
  | loop t bodyFirst c body =>
    cases bodyFirst with
    | true => exact await_withStops m b s _ _
    | false => exact await_withStops m b s _ _
  | block t ss locals =>
    simp only [begin, withStops_frames, withStops_cells]
    split
    · rename_i f outer _
      exact nextStatement_withStops { m with
        frames := { f with phase := .statement ss } :: outer
        cells := m.cells.registerAll locals } b s .undefined ss
    · exact finish_withStops m b s .undefined
  | name => exact consult_withStops m b s _ m.rules
  | binary | unary | adjust | giveBack | member | index | call | assign | choice | guarded =>
    exact await_withStops m b s _ _
  | jump | constant | declare | var | function | nop | invalid => exact finish_withStops m b s _

theorem receivePlain_withStops (f : Frame) (v : Value) :
    (m.withStops b s).receivePlain f v = restop b s (m.receivePlain f v) := by
  have hset : ∀ (c : Nat) (w u : Value),
      ({ m.withStops b s with cells := m.cells.set c w } : Machine).finish u =
        restop b s (({ m with cells := m.cells.set c w } : Machine).finish u) :=
    fun c w => finish_withStops { m with cells := m.cells.set c w } b s
  unfold receivePlain
  simp only [withStops_cells]
  split
  case h_7 => split <;> simp only [hset, finishFault_withStops]
  case h_8 => split <;> simp only [await_withStops, finishFault_withStops]
  case h_10 => exact await_withStops m b s _ _
  case h_14 =>
    split
    · exact finish_withStops m b s _
    · split
      · exact call_withStops m b s _ _
      · exact consult_withStops m b s _ _
  all_goals
    simp only [await_withStops, finish_withStops, finishOperation_withStops,
      nextStatement_withStops, nextArgument_withStops, hset, apply_ite (restop b s)]

theorem receive_withStops (f : Frame) (v : Value) :
    (m.withStops b s).receive f v = restop b s (m.receive f v) := by
  unfold receive
  split
  · unfold receiveBody
    split <;> simp only [await_withStops, finish_withStops]
  · unfold receiveReturn
    split <;> simp only [finish_withStops, finishFault_withStops]
  · unfold receiveArgument
    simp only [withStops_cells, setResult_withStops, finishResolved_withStops,
      addArgument_withStops, consult_withStops, apply_ite (restop b s)]
  · exact finish_withStops m b s v
  · exact finish_withStops m b s v
  · simp only [finish_withStops, receivePlain_withStops, apply_ite (restop b s)]

end

/-- The machine without stops. -/
def quiet (m : Machine) : Machine :=
  m.withStops {} false

/-- The two steps do the same, except that the first may stop where the second begins a node. -/
structure SameStep (r q : Machine × Progress) : Prop where
  machine : r.1.quiet = q.1
  next : r.2.next? = q.2.next?
  running : q.2 ≠ .suspended

theorem sameStep_of_goesOn {r : Machine × Progress} (h : GoesOn r) :
    SameStep r (restop {} false r) := by
  refine ⟨rfl, rfl, ?_⟩
  show r.2 ≠ .suspended
  rcases h with ⟨n, h⟩ | ⟨v, h⟩ <;> simp [h]

theorem goesOn_giveVariable (m : Machine) (n : Node) (d : Declaration) :
    GoesOn (m.giveVariable n d) := by
  unfold giveVariable
  split <;> exact .inr ⟨_, rfl⟩

theorem goesOn_giveFunction (m : Machine) (n : Node) (code : Lambda) :
    GoesOn (m.giveFunction n code) := by
  unfold giveFunction
  split
  · exact .inr ⟨_, rfl⟩
  · dsimp only
    split
    · exact .inr ⟨_, rfl⟩
    · split <;> exact .inr ⟨_, rfl⟩

theorem quiet_push (m : Machine) (n : Node) (hd : ¬ m.frames.length ≥ maxFrames) :
    m.quiet.push n =
      ({ m.quiet with frames := { node := n } :: m.frames }, .running .begin) := by
  refine (if_neg hd).trans ?_
  simp [quiet, withStops, Breakpoints.stopsAt, Breakpoints.contains]

theorem push_quiet (m : Machine) (n : Node) : SameStep (m.push n) (m.quiet.push n) := by
  by_cases hd : m.frames.length ≥ maxFrames
  · have h₁ : m.push n = (m.fault n tooDeep).2.give (m.fault n tooDeep).1 := if_pos hd
    have h₂ : m.quiet.push n = (m.quiet.fault n tooDeep).2.give (m.quiet.fault n tooDeep).1 :=
      if_pos hd
    rw [h₁, h₂]
    exact ⟨rfl, rfl, by simp [give]⟩
  · have h₁ : m.push n = if n.isBreakable && (m.stopNext || m.breakpoints.stopsAt n) then
        ({ m with frames := { node := n } :: m.frames, stopNext := false }, .suspended)
      else ({ m with frames := { node := n } :: m.frames }, .running .begin) := if_neg hd
    rw [h₁, quiet_push m n hd]
    split <;> exact ⟨rfl, rfl, by simp⟩

/-- **Breakpoints decide only where a machine stops.** -/
theorem step_quiet (m : Machine) (φ : Focus) : SameStep (m.step φ) (m.quiet.step φ) := by
  cases φ with
  | enter n =>
    cases n with
    | constant t v => exact ⟨rfl, rfl, by simp [step, enter, give]⟩
    | nop t => exact ⟨rfl, rfl, by simp [step, enter, give]⟩
    | invalid t message => exact ⟨rfl, rfl, by simp [step, enter, give]⟩
    | declare t d =>
      have h : m.quiet.step (.enter (.declare t d)) = restop {} false (m.giveVariable _ d) :=
        giveVariable_withStops m {} false _ d
      rw [h]
      exact sameStep_of_goesOn (goesOn_giveVariable m _ d)
    | var t d =>
      have h : m.quiet.step (.enter (.var t d)) = restop {} false (m.giveVariable _ d) :=
        giveVariable_withStops m {} false _ d
      rw [h]
      exact sameStep_of_goesOn (goesOn_giveVariable m _ d)
    | function t code =>
      have h : m.quiet.step (.enter (.function t code)) = restop {} false (m.giveFunction _ code) :=
        giveFunction_withStops m {} false _ code
      rw [h]
      exact sameStep_of_goesOn (goesOn_giveFunction m _ code)
    | _ => exact push_quiet m _
  | begin =>
    have hq : m.quiet.frames = m.frames := rfl
    rw [step, step, hq]
    split
    · rename_i f outer hf
      rw [show m.quiet.begin f.node = _ from begin_withStops m {} false f.node]
      exact sameStep_of_goesOn (begin_beginning m f.node).goesOn
    · exact ⟨rfl, rfl, by simp [give]⟩
  | give v =>
    have hq : m.quiet.frames = m.frames := rfl
    rw [step, step, hq]
    split
    · rename_i f outer hf
      rw [show m.quiet.receive f v = _ from receive_withStops m {} false f v]
      exact sameStep_of_goesOn (receive_reaction m f v).goesOn
    · exact ⟨rfl, rfl, by simp⟩

/-- Where a step leads on, the step without breakpoints leads on too and does not stop. -/
theorem quiet_step_of_next {m : Machine} {φ ψ : Focus} (h : (m.step φ).2.next? = some ψ) :
    m.quiet.step φ = ((m.step φ).1.quiet, .running ψ) := by
  obtain ⟨hm, hn, hr⟩ := step_quiet m φ
  rw [h] at hn
  generalize m.quiet.step φ = r at hm hn hr
  obtain ⟨m₁, p⟩ := r
  dsimp only at hm hn hr
  cases p with
  | running ψ' => rw [hm, Option.some.inj hn]
  | suspended => exact (hr rfl).elim
  | finished v => simp [Progress.next?] at hn

end Steppable.Machine
