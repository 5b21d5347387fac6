import Steppable.Proofs.Parser.Captures
import Steppable.Proofs.Parser.Diagnosis
import Steppable.Proofs.Parser.Sources

/-!
# Names are bound when they are read

Every name of a source without errors refers to the declaration that a reader of the text expects,
and every function captures exactly what it has to (`names_bound`). With too few captures a function
that is called after its maker has returned would read a cell that belongs to somebody else; with a
wrong declaration a script would change another variable than the one it names. Both would show at
run time only.

One induction on the fuel follows the grammar (`tracing`): every reader passes on what is known of
the nodes that have been read before it.
-/

namespace Steppable.Parser

open Reading Attempt Node

variable {p q r : Parser} {n left : Node} {ns : List Node}

/-! ## Steps of readers -/

section Steps

variable {α : Type} {k : Token.Kind} {E : Node → Parser → Prop}

theorem Traces.forward {Q : PUnit → Parser → Prop} (h : Traces p ns q)
    (hQ : ∀ r, Traces p ns r → Q ⟨⟩ r) : forward.Ensures q Q :=
  ensures_forward fun c => hQ _ (h.move c)

theorem Traces.accept {Q : Bool → Parser → Prop} (h : Traces p ns q)
    (hQ : ∀ b r, Traces p ns r → Q b r) : (accept k).Ensures q Q :=
  ensures_accept fun b c => hQ b _ (h.move c)

theorem Traces.acceptName {s : String} {Q : Bool → Parser → Prop} (h : Traces p ns q)
    (hQ : ∀ b r, Traces p ns r → Q b r) : (acceptName s).Ensures q Q :=
  ensures_acceptName fun b c => hQ b _ (h.move c)

theorem Traces.expect {Q : PUnit → Parser → Prop} (h : Traces p ns q)
    (hQ : ∀ r, Traces p ns r → Q ⟨⟩ r) : (expect k).Ensures q (Stops p) Q :=
  ensures_expect (fun c => hQ _ (h.move c)) fun c _ _ => ⟨h.1.trans (h.1.coherent.mark c), rfl⟩

theorem Traces.takeNameOr {what : String} {Q : String → Parser → Prop} (h : Traces p ns q)
    (hQ : ∀ s r, Traces p ns r → Q s r) : (takeNameOr what).Ensures q (Stops p) Q :=
  ensures_takeNameOr (fun s c => hQ s _ (h.move c)) fun c _ _ =>
    ⟨h.1.trans (h.1.coherent.mark c), rfl⟩

theorem Follows.stops_errorAt {place : Location} {message : String} (h : Follows p q) :
    (errorAt place message).Ensures q (Stops p) :=
  ensures_errorAt ⟨h.trans (h.coherent.mark _), rfl⟩

theorem Follows.stops_unexpected {expected : String} (h : Follows p q) :
    (unexpected expected).Ensures q (Stops p) :=
  ensures_unexpected fun _ _ => ⟨h.trans (h.coherent.mark _), rfl⟩

/-- A node that is an error ends the attempt, and then an error has been noted. -/
theorem Traces.valid {Q : Node → Parser → Prop} (h : Traces p ns q) (hn : n ∈ ns) (hQ : Q n q) :
    (valid n).Ensures q (Stops p) Q := by
  refine ensures_valid (fun _ => hQ) fun hi => ⟨h.1, ?_⟩
  by_contra hf
  have := (h.2 (by simpa using hf)).valid n hn
  simp [hi] at this

/-- A plain node of the parts that have been read, which ends where the last token ended. -/
theorem Traces.spanned {start : Location} {build : Tag → Node} (h : Traces p ns q)
    (hb : ∀ t, (build t).tag = t ∧ (build t).inOrder = ns ∧ Plain (build t)) :
    Attempt.Ensures (do Reading.node (← spanFrom start) build) q E fun n r => Traces p [n] r :=
  .bind (ensures_lift (ensures_spanFrom fun _ => ensures_lift (ensures_node
    (Traces.node ((hb _).2.1.symm ▸ h) (by rw [Node.id, (hb _).1]) (hb _).2.2))))

end Steps

/-! ## The grammar -/

/-- With the given fuel every reader of the grammar resolves names and notes their uses. A reader
that continues the node `left` needs to know that it was read before. -/
structure Tracing (fuel : Nat) : Prop where
  expression : ∀ {p}, p.Coherent → ∀ power,
    (expression fuel power).Ensures p fun n q => Traces p [n] q
  operations : ∀ {p q left}, Traces p [left] q → ∀ power,
    (operations fuel power left).Ensures q fun n r => Traces p [n] r
  operand : ∀ {p}, p.Coherent → ∀ power,
    (operand fuel power).Ensures p (Stops p) fun n q => Traces p [n] q
  operation : ∀ {p q left}, Traces p [left] q →
    (operation fuel left).Ensures q (Stops p) fun n r => Traces p [n] r
  arguments : ∀ {p}, p.Coherent → (arguments fuel).Ensures p (Stops p) fun as q => Traces p as q
  argumentList : ∀ {p}, p.Coherent →
    (argumentList fuel).Ensures p (Stops p) fun as q => Traces p as q
  named : ∀ {p}, p.Coherent → ∀ place s,
    (named fuel place s).Ensures p (Stops p) fun n q => Traces p [n] q
  condition : ∀ {p}, p.Coherent → (condition fuel).Ensures p (Stops p) fun n q => Traces p [n] q
  ifStatement : ∀ {p}, p.Coherent → ∀ place,
    (ifStatement fuel place).Ensures p (Stops p) fun n q => Traces p [n] q
  whileStatement : ∀ {p}, p.Coherent → ∀ place,
    (whileStatement fuel place).Ensures p (Stops p) fun n q => Traces p [n] q
  doStatement : ∀ {p}, p.Coherent → ∀ place,
    (doStatement fuel place).Ensures p (Stops p) fun n q => Traces p [n] q
  declarators : ∀ {p}, p.Coherent →
    (declarators fuel).Ensures p (Stops p) fun ns q => Traces p ns q
  function : ∀ {p}, p.Coherent → ∀ place,
    (function fuel place).Ensures p (Stops p) fun n q => Traces p [n] q
  functionParts : ∀ {p}, p.Coherent → (functionParts fuel).Ensures p (Stops p) fun parts r =>
    ∃ q, Declares p parts.1 q ∧ Grows q [] r ∧ Traces q [parts.2] r
  parameters : ∀ {p}, p.Coherent →
    (parameters fuel).Ensures p (Stops p) fun params q => Declares p params q
  returnStatement : ∀ {p}, p.Coherent → ∀ place,
    (returnStatement fuel place).Ensures p (Stops p) fun n q => Traces p [n] q
  block : ∀ {p}, p.Coherent → ∀ place,
    (block fuel place).Ensures p fun n q => Traces p [n] q ∧ Grows p [] q
  statement : ∀ {p}, p.Coherent → (statement fuel).Ensures p fun n q => Traces p [n] q
  statements : ∀ {p}, p.Coherent → ∀ closing,
    (statements fuel closing).Ensures p fun ns q => Traces p ns q

theorem tracing_zero : Tracing 0 where
  expression _ _ := ensures_outOfFuel
  operations _ _ := ensures_outOfFuel
  operand _ _ := ensures_lift ensures_outOfFuel
  operation _ := ensures_lift ensures_outOfFuel
  arguments _ := ensures_lift ensures_outOfFuel
  argumentList _ := ensures_lift ensures_outOfFuel
  named _ _ _ := ensures_lift ensures_outOfFuel
  condition _ := ensures_lift ensures_outOfFuel
  ifStatement _ _ := ensures_lift ensures_outOfFuel
  whileStatement _ _ := ensures_lift ensures_outOfFuel
  doStatement _ _ := ensures_lift ensures_outOfFuel
  declarators _ := ensures_lift ensures_outOfFuel
  function _ _ := ensures_lift ensures_outOfFuel
  functionParts _ := ensures_lift ensures_outOfFuel
  parameters _ := ensures_lift ensures_outOfFuel
  returnStatement _ _ := ensures_lift ensures_outOfFuel
  block _ _ := ensures_outOfFuel
  statement _ := ensures_outOfFuel
  statements _ _ := ensures_outOfFuel

namespace Tracing

variable {fuel power : Nat} {left : Node} {place : Location} (ih : Tracing fuel)
include ih

/-! ### Expressions -/

/-- An expression is read after what has been read. -/
theorem next_expression {Q : Node → Parser → Prop} (h : Traces p ns q)
    (hQ : ∀ n r, Traces p (ns ++ [n]) r → Q n r) : (Parser.expression fuel power).Ensures q Q :=
  (ih.expression h.1.coherent power).mono fun n r hn => hQ n r (h.append hn)

/-- The next expression may not be an error node. -/
theorem next_valid {α : Type} {Q : α → Parser → Prop} {f : Node → Attempt α} (h : Traces p ns q)
    (hQ : ∀ n r, Traces p (ns ++ [n]) r → (f n).Ensures r (Stops p) Q) :
    Attempt.Ensures (do f (← valid (← Parser.expression fuel power))) q (Stops p) Q :=
  .bind (ensures_lift (ih.next_expression h fun n r hn =>
    .bind (hn.valid (by simp) (hQ n r hn))))

theorem next_statement {Q : Node → Parser → Prop} (h : Traces p ns q)
    (hQ : ∀ n r, Traces p (ns ++ [n]) r → Q n r) : (Parser.statement fuel).Ensures q Q :=
  (ih.statement h.1.coherent).mono fun n r hn => hQ n r (h.append hn)

theorem expression_succ (h : p.Coherent) :
    (Parser.expression (fuel + 1) power).Ensures p fun n q => Traces p [n] q := by
  rw [Parser.expression]
  refine .bind (ensures_kind fun k => ?_)
  split
  · exact h.refl.stops_unexpected.mono fun _ _ hn => hn.traces
  · refine .bind (ensures_orError ((ih.operand h power).mono ?_ ?_))
    · exact fun n q hn => ih.operations hn.traces power
    · exact fun n q hn => ih.operations hn power

theorem operations_succ (h : Traces p [left] q) :
    (Parser.operations (fuel + 1) power left).Ensures q fun n r => Traces p [n] r := by
  rw [Parser.operations]
  refine .bind (ensures_kind fun k => .bind (ensures_hasFailed ?_))
  split
  · refine .bind (ensures_orError ((ih.operation h).mono ?_ ?_))
    · exact fun n r hn => ih.operations hn.traces power
    · exact fun n r hn => ih.operations hn power
  · exact ensures_pure h

theorem operand_succ (h : p.Coherent) :
    (Parser.operand (fuel + 1) power).Ensures p (Stops p) fun n q => Traces p [n] q := by
  rw [Parser.operand]
  refine .bind (ensures_lift (ensures_here fun place => .bind (ensures_get ?_)))
  dsimp only
  have hp := h.start
  have literal : ∀ v : Value, Attempt.Ensures (do forward; node place (.constant · v)) p (Stops p)
      fun n q => Traces p [n] q := by
    intro v
    refine .bind (ensures_lift (hp.forward fun q hq => ensures_lift (ensures_node ?_)))
    exact hq.node rfl ⟨rfl, rfl, rfl, .rfl⟩
  have adjusted : ∀ change, Attempt.Ensures (do
      forward
      let n ← valid (← Parser.expression fuel unaryPower)
      if n.isAssignable then node (← spanFrom place) (.adjust · change n)
      else fail (errorAt n.place notAdjustable)) p (Stops p) fun n q => Traces p [n] q := by
    intro change
    refine .bind (ensures_lift (hp.forward fun q hq => ih.next_valid hq fun n r hn => ?_))
    split
    · exact hn.spanned fun _ => ⟨rfl, rfl, rfl, rfl, rfl, .rfl⟩
    · exact ensures_fail hn.1.stops_errorAt
  split
  · exact literal _
  · exact literal _
  · exact ensures_fail h.refl.stops_errorAt
  · exact adjusted _
  · exact adjusted _
  · exact ih.named h place _
  · refine .bind (ensures_lift (hp.forward fun q hq => ih.next_valid hq fun n r hn => ?_))
    exact .bind (hn.expect fun r' hr => Attempt.ensures_pure hr)
  · refine .bind (ensures_lift (hp.forward fun q hq => ensures_lift ?_))
    exact (ih.block hq.1.coherent place).mono fun n r hn => hq.append hn.1
  · split
    · refine .bind (ensures_lift (hp.forward fun q hq => ?_))
      refine .bind (ensures_lift (ih.next_expression hq fun n r hn => ?_))
      exact hn.spanned fun _ => ⟨rfl, rfl, rfl, rfl, rfl, .rfl⟩
    · split
      · exact ensures_lift (ensures_node (hp.node rfl ⟨rfl, rfl, rfl, .rfl⟩))
      · exact ensures_fail h.refl.stops_unexpected

theorem operation_succ (h : Traces p [left] q) :
    (Parser.operation (fuel + 1) left).Ensures q (Stops p) fun n r => Traces p [n] r := by
  rw [Parser.operation]
  refine .bind (ensures_lift (ensures_kind fun k => ?_))
  have adjusted : ∀ change, Attempt.Ensures (do
      if left.isAssignable then
        forward
        node (← spanFrom left.place) (.adjust · change left)
      else fail (errorAt left.place notAdjustable)) q (Stops p) fun n r => Traces p [n] r := by
    intro change
    split
    · exact .bind (ensures_lift (h.forward fun r hr =>
        hr.spanned fun _ => ⟨rfl, rfl, rfl, rfl, rfl, .rfl⟩))
    · exact ensures_fail h.1.stops_errorAt
  split
  · refine .bind (ensures_lift (h.forward fun r hr => ?_))
    refine .bind (ensures_lift (ih.next_expression hr fun n r' hn => ?_))
    exact ensures_lift (ensures_node (hn.node rfl ⟨rfl, rfl, rfl, .rfl⟩))
  · refine .bind (ensures_lift (h.forward fun r hr => ?_))
    exact .bind (hr.takeNameOr fun s r' hr' => hr'.spanned fun _ => ⟨rfl, rfl, rfl, rfl, rfl, .rfl⟩)
  · refine .bind (ensures_lift (h.forward fun r hr => ih.next_valid hr fun n r' hn => ?_))
    exact .bind (hn.expect fun r'' hn' => hn'.spanned fun _ => ⟨rfl, rfl, rfl, rfl, rfl, .rfl⟩)
  · refine .bind (ensures_lift (h.forward fun r hr => ?_))
    refine .bind ((ih.arguments hr.1.coherent).mono (fun _ _ => Stops.after hr.1) ?_)
    exact fun as r' has => (hr.append has).spanned fun _ => ⟨rfl, rfl, rfl, rfl, rfl, .rfl⟩
  · refine .bind (ensures_lift (h.forward fun r hr => ih.next_valid hr fun a r₁ ha => ?_))
    refine .bind (ha.expect fun r₂ ha' => ?_)
    refine .bind (ensures_lift (ih.next_expression ha' fun b r₃ hb => ?_))
    exact ensures_lift (ensures_node (hb.node rfl ⟨rfl, rfl, rfl, .rfl⟩))
  · split
    · refine .bind (ensures_lift (h.forward fun r hr => ?_))
      refine .bind (ensures_lift ((ih.expression hr.1.coherent _).mono fun v r' hv => ?_))
      exact ensures_lift (ensures_node (hr.assign hv))
    · exact ensures_fail h.1.stops_errorAt
  · split
    · refine .bind (ensures_lift (h.forward fun r hr => ?_))
      refine .bind (ensures_lift (ih.next_expression hr fun v r' hv => ?_))
      refine .bind (ensures_lift (ensures_node ?_))
      exact ensures_lift (ensures_node hv.compound)
    · exact ensures_fail h.1.stops_errorAt
  · exact adjusted _
  · exact adjusted _
  · exact ensures_fail h.1.stops_unexpected

theorem arguments_succ (h : p.Coherent) :
    (Parser.arguments (fuel + 1)).Ensures p (Stops p) fun as q => Traces p as q := by
  rw [Parser.arguments]
  have hp := h.start
  refine .bind (ensures_lift (hp.accept fun b q hq => ?_))
  split
  · exact Attempt.ensures_pure hq
  · refine .bind ((ih.argumentList hq.1.coherent).mono (fun _ _ => Stops.after hq.1) ?_)
    exact fun as r has => .bind ((hq.append has).expect fun r' hr => Attempt.ensures_pure hr)

theorem argumentList_succ (h : p.Coherent) :
    (Parser.argumentList (fuel + 1)).Ensures p (Stops p) fun as q => Traces p as q := by
  rw [Parser.argumentList]
  have hp := h.start
  refine ih.next_valid hp fun a q ha => ?_
  refine .bind (ensures_lift (ha.accept fun b r hr => ?_))
  split
  · refine .bind ((ih.argumentList hr.1.coherent).mono (fun _ _ => Stops.after hr.1) ?_)
    exact fun as r' has => Attempt.ensures_pure (hr.append has)
  · exact Attempt.ensures_pure hr

/-! ### Statements -/

theorem condition_succ (h : p.Coherent) :
    (Parser.condition (fuel + 1)).Ensures p (Stops p) fun n q => Traces p [n] q := by
  rw [Parser.condition]
  have hp := h.start
  refine .bind (hp.expect fun q hq => ih.next_valid hq fun c r hc => ?_)
  exact .bind (hc.expect fun r' hr => Attempt.ensures_pure hr)

/-- A condition is read after what has been read. -/
theorem next_condition {Q : Node → Parser → Prop} (h : Traces p ns q)
    (hQ : ∀ n r, Traces p (ns ++ [n]) r → Q n r) :
    (Parser.condition fuel).Ensures q (Stops p) Q :=
  (ih.condition h.1.coherent).mono (fun _ _ => Stops.after h.1) fun n r hn => hQ n r (h.append hn)

theorem ifStatement_succ (h : p.Coherent) :
    (Parser.ifStatement (fuel + 1) place).Ensures p (Stops p) fun n q => Traces p [n] q := by
  rw [Parser.ifStatement]
  have hp := h.start
  refine .bind (ensures_lift (hp.forward fun q hq => ?_))
  refine .bind (ih.next_condition hq fun c q₁ hc => ?_)
  refine .bind (ensures_lift (ih.next_statement hc fun a q₂ ha => ?_))
  -- Whether there is an `else` changes only the cursor.
  refine .bind (ensures_lift (Reading.Ensures.mono
    (Q := fun _ q₃ => Traces p [c, a] q₃) ?_ fun otherwise q₃ hx => ?_))
  · refine .bind (ensures_hasFailed ?_)
    split
    · exact ensures_pure ha
    · exact ha.acceptName fun _ _ hx => hx
  · split
    · exact .bind (ensures_lift (ih.next_statement hx fun b q₄ hb =>
        hb.spanned fun _ => ⟨rfl, rfl, rfl, rfl, rfl, .rfl⟩))
    · exact hx.spanned fun _ => ⟨rfl, rfl, rfl, rfl, rfl, .rfl⟩

theorem whileStatement_succ (h : p.Coherent) :
    (Parser.whileStatement (fuel + 1) place).Ensures p (Stops p) fun n q => Traces p [n] q := by
  rw [Parser.whileStatement]
  have hp := h.start
  refine .bind (ensures_lift (hp.forward fun q hq => ?_))
  refine .bind (ih.next_condition hq fun c q₁ hc => ?_)
  exact .bind (ensures_lift (ih.next_statement hc fun b q₂ hb =>
    hb.spanned fun _ => ⟨rfl, rfl, rfl, rfl, rfl, .rfl⟩))

theorem doStatement_succ (h : p.Coherent) :
    (Parser.doStatement (fuel + 1) place).Ensures p (Stops p) fun n q => Traces p [n] q := by
  rw [Parser.doStatement]
  have hp := h.start
  refine .bind (ensures_lift (hp.forward fun q hq => ?_))
  refine .bind (ensures_lift (ih.next_statement hq fun b q₁ hb => ?_))
  refine .bind (hb.valid (by simp) (.bind (ensures_lift (hb.acceptName fun found q₂ hx => ?_))))
  split
  · refine .bind (ih.next_condition hx fun c q₃ hc => ?_)
    -- The condition is written behind the body.
    exact hc.spanned fun _ => ⟨rfl, rfl, rfl, rfl, rfl, .swap ..⟩
  · exact ensures_fail hx.1.stops_unexpected

theorem returnStatement_succ (h : p.Coherent) :
    (Parser.returnStatement (fuel + 1) place).Ensures p (Stops p) fun n q => Traces p [n] q := by
  rw [Parser.returnStatement]
  have hp := h.start
  refine .bind (ensures_lift (hp.forward fun q hq => ?_))
  refine .bind (ensures_lift (ensures_kind fun k => ?_))
  split
  · exact hq.spanned fun _ => ⟨rfl, rfl, rfl, rfl, rfl, .rfl⟩
  · exact hq.spanned fun _ => ⟨rfl, rfl, rfl, rfl, rfl, .rfl⟩
  · exact hq.spanned fun _ => ⟨rfl, rfl, rfl, rfl, rfl, .rfl⟩
  · exact ih.next_valid hq fun v r hv => hv.spanned fun _ => ⟨rfl, rfl, rfl, rfl, rfl, .rfl⟩

theorem statement_succ (h : p.Coherent) :
    (Parser.statement (fuel + 1)).Ensures p fun n q => Traces p [n] q := by
  rw [Parser.statement]
  refine .bind ((ih.expression h 0).mono fun n q hn => ?_)
  exact .bind (hn.accept fun _ r hr => ensures_pure hr)

theorem statements_succ (h : p.Coherent) (closing : Option Token.Kind) :
    (Parser.statements (fuel + 1) closing).Ensures p fun ns q => Traces p ns q := by
  unfold Parser.statements
  have hp := h.start
  refine .bind (ensures_hasFailed ?_)
  split
  · exact ensures_pure hp
  · refine .bind (Reading.Ensures.mono (Q := fun _ q => Traces p [] q) ?_ fun closed q hq => ?_)
    · cases closing with
      | some k => exact hp.accept fun _ _ hq => hq
      | none => exact .bind (ensures_kind fun _ => ensures_pure hp)
    · split
      · exact ensures_pure hq
      · refine .bind (ih.next_statement hq fun n q₁ hn => ?_)
        refine .bind ((ih.statements hn.1.coherent closing).mono fun ns q₂ hns => ?_)
        exact ensures_pure (hn.append hns)

/-! ### Declarations, functions and blocks -/

theorem declarators_succ (h : p.Coherent) :
    (Parser.declarators (fuel + 1)).Ensures p (Stops p) fun ns q => Traces p ns q := by
  rw [Parser.declarators]
  have hp := h.start
  refine .bind (ensures_lift (ensures_here fun place => ?_))
  refine .bind (hp.takeNameOr fun s q hq => ?_)
  refine .bind ((declares_declare hq.1.coherent).mono (fun _ _ => Stops.after hq.1) ?_)
  intro d q₁ hd
  refine .bind (ensures_lift (ensures_node ?_))
  have ht : Traces p [.declare ⟨q₁.next, place⟩ d] _ := hq.append hd.traces
  refine .bind (ensures_lift (Reading.Ensures.mono
    (Q := fun n q₂ => Traces p [n] q₂) ?_ fun n q₂ hn => ?_))
  · refine .bind (ht.accept fun b q₂ hx => ?_)
    split
    · refine .bind ((ih.expression hx.1.coherent _).mono fun v q₃ hv => ensures_node ?_)
      exact hx.assign hv
    · exact ensures_pure hx
  · refine .bind (ensures_lift (Reading.Ensures.mono
      (Q := fun _ q₃ => Traces p [n] q₃) ?_ fun more q₃ hx => ?_))
    · refine .bind (ensures_hasFailed ?_)
      split
      · exact ensures_pure hn
      · exact hn.accept fun _ _ hx => hx
    · split
      · refine .bind ((ih.declarators hx.1.coherent).mono (fun _ _ => Stops.after hx.1) ?_)
        exact fun ns q₄ hns => Attempt.ensures_pure (hx.append hns)
      · exact Attempt.ensures_pure hx

theorem parameters_succ (h : p.Coherent) :
    (Parser.parameters (fuel + 1)).Ensures p (Stops p) fun params q => Declares p params q := by
  rw [Parser.parameters]
  refine .bind (ensures_lift (ensures_here fun place => ?_))
  refine .bind (ensures_takeNameOr (fun s c => ?_) fun c _ _ => ⟨h.mark c, rfl⟩)
  have hm := h.move c
  refine .bind ((declares_declare hm.coherent).mono (fun _ _ => Stops.after hm) fun d q hd => ?_)
  have hd' : Declares p [d] q := ⟨(Grows.move p c).trans hd.grows, hd.coherent, hd.functions⟩
  refine .bind (ensures_lift (ensures_accept fun b c' => ?_))
  have hd'' := hd'.move c'
  split
  · refine .bind ((ih.parameters hd''.coherent).mono (fun _ _ => Stops.after hd''.follows) ?_)
    intro ds r hds
    exact Attempt.ensures_pure (hd''.trans hds)
  · exact Attempt.ensures_pure hd''

theorem block_succ (h : p.Coherent) : (Parser.block (fuel + 1) place).Ensures p fun n q =>
    Traces p [n] q ∧ Grows p [] q := by
  rw [Parser.block]
  refine .bind (ensures_modify ?_)
  refine .bind ((ih.statements h.openScope _).mono fun ss q hss => ?_)
  obtain ⟨⟨new, hg⟩, -⟩ := hss.1
  obtain ⟨scope, hs, hclosed⟩ := traces_closed h hg hss
  refine .bind (ensures_modifyGet ?_)
  simp only [hs]
  exact .bind (ensures_spanFrom fun place => hclosed place)

theorem functionParts_succ (h : p.Coherent) :
    (Parser.functionParts (fuel + 1)).Ensures p (Stops p) fun parts r =>
      ∃ q, Declares p parts.1 q ∧ Grows q [] r ∧ Traces q [parts.2] r := by
  rw [Parser.functionParts]
  refine .bind (ensures_expect (fun c => ?_) fun c _ _ => ⟨h.mark c, rfl⟩)
  refine .bind (Attempt.Ensures.mono (E := Stops p)
    (Q := fun params q => Declares p params q) ?_ (fun _ _ hn => hn) ?_)
  · refine .bind (ensures_lift (ensures_accept fun b c' => ?_))
    have hd := h.declares_nil c'
    split
    · exact Attempt.ensures_pure hd
    · refine .bind ((ih.parameters hd.coherent).mono (fun _ _ => Stops.after hd.follows) ?_)
      intro ps q hps
      have hd' : Declares p ps q := hd.trans hps
      refine .bind (ensures_expect (fun c'' => ?_) fun c'' _ _ =>
        ⟨hd'.follows.trans (hd'.coherent.mark c''), rfl⟩)
      exact Attempt.ensures_pure (hd'.move c'')
  · intro params q hd
    refine .bind (ensures_lift (ensures_here fun place => ?_))
    refine .bind (ensures_expect (fun c' => ?_) fun c' _ _ =>
      ⟨hd.follows.trans (hd.coherent.mark c'), rfl⟩)
    have hd' := hd.move c'
    refine .bind (ensures_lift ((ih.block hd'.coherent place).mono fun body r hb => ?_))
    refine .bind (ensures_lift (ensures_hasFailed ?_))
    split
    · rename_i hf
      exact ensures_throw ⟨hd'.follows.trans hb.1.1, hf⟩
    · exact Attempt.ensures_pure ⟨_, hd', hb.2, hb.1⟩

theorem function_succ (h : p.Coherent) :
    (Parser.function (fuel + 1) place).Ensures p (Stops p) fun n q => Traces p [n] q := by
  rw [Parser.function]
  refine .bind (ensures_lift (ensures_forward fun c => ?_))
  refine .bind (Attempt.Ensures.mono (E := Stops p)
    (Q := fun own q => Declares p own.toList q) ?_ (fun _ _ hn => hn) ?_)
  · refine .bind (ensures_lift (ensures_takeName fun s c' => ?_))
    have hd := h.declares_nil c'
    cases s with
    | none => exact Attempt.ensures_pure hd
    | some s =>
      refine .bind (ensures_get ?_)
      refine .bind ((declares_declare hd.coherent).mono (fun _ _ => Stops.after hd.follows) ?_)
      exact fun d q hd' => Attempt.ensures_pure (hd.trans hd')
  · intro own q hown
    have hq := hown.coherent
    refine .bind (ensures_lift (ensures_modify (.bind (ensures_lift (ensures_modify ?_)))))
    refine .bind (ensures_outcome
      ((ih.functionParts (p := q.entered) hq.openScope.openFunction).mono ?_ ?_))
    · rintro n r ⟨⟨⟨new, hg⟩, hc⟩, hf⟩
      obtain ⟨scope, hs, hg', hc', -⟩ := close_opened_function hq hg hc
      refine .bind (ensures_lift (ensures_modifyGet (.bind (ensures_lift (ensures_modifyGet ?_)))))
      simp only [hs]
      exact ensures_throw ⟨hown.follows.trans ⟨⟨_, hg'⟩, hc'⟩, hf⟩
    · rintro ⟨params, body⟩ r ⟨q₁, hd, hg, ht⟩
      obtain ⟨scope, hs, hmade⟩ := hown.function hd hg ht
      refine .bind (ensures_lift (ensures_modifyGet (.bind (ensures_lift (ensures_modifyGet ?_)))))
      simp only [hs]
      exact .bind (ensures_lift (ensures_spanFrom fun place =>
        ensures_lift (ensures_node (hmade place))))

theorem named_succ (h : p.Coherent) (s : String) :
    (Parser.named (fuel + 1) place s).Ensures p (Stops p) fun n q => Traces p [n] q := by
  unfold Parser.named
  have hp := h.start
  split
  · exact .bind (ensures_lift (hp.forward fun q hq => ensures_lift
      (ensures_node (hq.node rfl ⟨rfl, rfl, rfl, .rfl⟩))))
  · split
    · exact ih.ifStatement h place
    · exact ih.whileStatement h place
    · exact ih.doStatement h place
    · refine .bind (ensures_lift (hp.forward fun q hq => ?_))
      refine .bind ((ih.declarators hq.1.coherent).mono (fun _ _ => Stops.after hq.1) ?_)
      intro ds r hds
      exact .bind (ensures_lift (ensures_spanFrom fun _ => ensures_lift (hq.append hds).group))
    · exact ih.function h place
    · exact .bind (ensures_lift (hp.forward fun q hq => ensures_lift
        (ensures_node (hq.node rfl ⟨rfl, rfl, rfl, .rfl⟩))))
    · exact .bind (ensures_lift (hp.forward fun q hq => ensures_lift
        (ensures_node (hq.node rfl ⟨rfl, rfl, rfl, .rfl⟩))))
    · exact ih.returnStatement h place
    · exact ensures_fail h.refl.stops_errorAt
    · refine .bind (ensures_lift (hp.forward fun q hq => ensures_lift ?_))
      exact (traces_nameNode hq.1.coherent).mono fun n r hn => hq.append hn

theorem succ : Tracing (fuel + 1) where
  expression h _ := ih.expression_succ h
  operations h _ := ih.operations_succ h
  operand h _ := ih.operand_succ h
  operation h := ih.operation_succ h
  arguments h := ih.arguments_succ h
  argumentList h := ih.argumentList_succ h
  named h _ s := ih.named_succ h s
  condition h := ih.condition_succ h
  ifStatement h _ := ih.ifStatement_succ h
  whileStatement h _ := ih.whileStatement_succ h
  doStatement h _ := ih.doStatement_succ h
  declarators h := ih.declarators_succ h
  function h _ := ih.function_succ h
  functionParts h := ih.functionParts_succ h
  parameters h := ih.parameters_succ h
  returnStatement h _ := ih.returnStatement_succ h
  block h _ := ih.block_succ h
  statement h := ih.statement_succ h
  statements h closing := ih.statements_succ h closing

end Tracing

/-- **Every reader of the grammar binds the names that it reads.** -/
theorem tracing (fuel : Nat) : Tracing fuel := by
  induction fuel with
  | zero => exact tracing_zero
  | succ fuel ih => exact ih.succ

/-! ## Whole sources -/

/-- The statements of a source; there has to be one. -/
theorem traces_whole {fuel : Nat} {f : List Node → Reading Node} {Q : Node → Parser → Prop}
    (h : p.Coherent) (hQ : ∀ ss q, Traces p ss q → (f ss).Ensures q Q) :
    Reading.Ensures (do
      let ss ← statements fuel none
      let failed ← hasFailed
      let ss ← if ss.isEmpty && !failed then (return [← unexpected "expression"]) else pure ss
      f ss) p Q := by
  refine .bind (((tracing fuel).statements h none).mono fun ss q hss => ?_)
  refine .bind (ensures_hasFailed ?_)
  split
  · refine .bind (.bind (hss.1.stops_unexpected.mono fun n r hn => ensures_pure ?_))
    exact hQ _ _ hn.traces
  · exact .bind (ensures_pure (hQ ss q hss))

theorem traces_analyse (h : p.Idle) (fuel : Nat) :
    (analyse fuel).Ensures p fun n q => Traces { p with failed := false } [n] q := by
  have hp := h.of_same p.cursor false
  unfold analyse
  refine .bind (ensures_modify ?_)
  rw [← h.functions]
  generalize { p with failed := false } = p at hp ⊢
  refine .bind (ensures_here fun start => .bind (ensures_get ?_))
  cases hg : p.scope.options.global with
  | true =>
    refine .bind (ensures_get (traces_whole hp.coherent fun ss q hss => ?_))
    refine .bind (ensures_modify ?_)
    dsimp only
    rw [closeTo_of_le (Nat.le_of_eq hss.1.depth_eq)]
    exact .bind (ensures_pure (.bind (ensures_get hss.group)))
  | false =>
    refine .bind (ensures_modify ?_)
    refine .bind (ensures_get (traces_whole hp.coherent.openScope fun ss q hss => ?_))
    refine .bind (ensures_modify ?_)
    dsimp only
    rw [closeTo_of_le (Nat.le_of_eq hss.1.depth_eq)]
    obtain ⟨⟨new, hnew⟩, -⟩ := hss.1
    obtain ⟨scope, hs, hclosed⟩ := traces_closed hp.coherent hnew hss
    refine .bind (ensures_modifyGet ?_)
    simp only [hs]
    exact .bind (ensures_get ((hclosed _).mono fun n r hn => hn.1))

theorem Idle.inScope (h : p.Idle) : p.inScope = p.scope.globals.reverse := by
  unfold Parser.inScope
  rw [h.levels]
  cases hg : p.scope.options.global with
  | true => simp
  | false => simp [Scope.globals, hg]

/-- Without an error the names of a source have been resolved, and their uses have been noted. -/
theorem traced_parse (h : p.Idle) {source : String} (hclean : (p.parse source).1.invalids = []) :
    Traced { p with cursor := .ofSource source, failed := false } [(p.parse source).1]
      (p.parse source).2 := by
  have hfailed : (p.parse source).2.failed = false :=
    Bool.eq_false_iff.2 fun hf => (failed_iff_invalids p source).1 hf hclean
  have hidle := h.of_same (.ofSource source) p.failed
  unfold parse at hclean hfailed ⊢
  dsimp only at hclean hfailed ⊢
  split at hclean
  · rename_i r hr
    simp only [hr] at hfailed ⊢
    exact (traces_analyse hidle _ _ _ hr).2 hfailed
  · simp [invalids, nodes, visits, isInvalid] at hclean

/-- **Names are bound and captures are exact.** Take any parser, whatever it has read before, and a
source in which it finds no error. Every name of the source refers to the latest declaration that is
visible at that point of the text, where the globals of earlier sources come first. Every variable is
a local of a block around it, a parameter of a function around it or a global. And every function
lists as free, without duplicates and in order of first use, what its body uses and what is declared
outside it. -/
theorem names_bound (hp : p.Used) {source : String} (h : (p.parse source).1.invalids = []) :
    Node.Bound p.scope.globals (p.parse source).1 (p.parse source).2.scope.globals := by
  have hread := traced_parse hp.idle h
  have hparsed := parse_sound hp.idle source
  refine bound_of_resolved hparsed.tagged ?_ fun t code hw => ?_
  · rw [← hp.idle.inScope, ← hparsed.idle.inScope]
    exact hread.resolved
  · exact (hread.recorded _ (List.mem_singleton_self _) _ hw).captures t code rfl

/-- The parser has met an error before, behind the declaration of `a`. The inner function refers to a
parameter, a local and the function around it. -/
theorem names_bound_after_error :
    let p := ((Parser.new { global := true }).parse "var a = (").2
    let r := p.parse "function f(x) { var y = a; return function() { return x == y || f; }; }"
    Node.Bound p.scope.globals r.1 r.2.scope.globals := by
  refine names_bound (.parse "var a = (" (.new _ 1)) ?_
  rw [← List.isEmpty_iff]
  decide +kernel

end Steppable.Parser
