import Steppable.Proofs.Parser.Reading
import Steppable.Proofs.Tree.Within

/-!
# Errors are in the tree

A parser notes that its source has an error, and it puts a node that says so into the tree. The two
go together: after a source has been read, an error is noted if and only if the tree shows one
(`candid`). Behind a first error reading may go on for a while, and what is read then may be
dropped, but the part with the first error is kept.
-/

namespace Steppable

namespace Node

variable {n : Node}

/-- There is a place in the tree where the source could not be read. -/
def Faulty (n : Node) : Prop :=
  ∃ x, n.Within x ∧ x.isInvalid = true

theorem faulty_iff : n.Faulty ↔ n.isInvalid = true ∨ ∃ c ∈ n.children, c.Faulty := by
  constructor
  · rintro ⟨x, hx, hi⟩
    rcases within_iff.1 hx with rfl | ⟨c, hc, hcx⟩
    · exact .inl hi
    · exact .inr ⟨c, hc, x, hcx, hi⟩
  · rintro (hi | ⟨c, hc, x, hx, hi⟩)
    · exact ⟨n, .refl n, hi⟩
    · exact ⟨x, .step hc hx, hi⟩

theorem faulty_of_isInvalid (h : n.isInvalid = true) : n.Faulty :=
  faulty_iff.2 (.inl h)

theorem invalids_isEmpty_iff : n.invalids.isEmpty = true ↔ ¬ n.Faulty := by
  simp [invalids, Faulty, mem_nodes_iff]

end Node

namespace Parser

open Reading Attempt Node

variable {p q r : Parser} {n a b : Node} {ns ms : List Node}

/-- From `p` on the nodes `ns` have been read: an error is noted if one was noted before or one of
the nodes shows it. -/
def Tells (p : Parser) (ns : List Node) (q : Parser) : Prop :=
  q.failed = true ↔ p.failed = true ∨ ∃ n ∈ ns, n.Faulty

/-- The attempt has ended with the node of an error. -/
def Broken (n : Node) (q : Parser) : Prop :=
  q.failed = true ∧ n.Faulty

/-- The attempt that began with `p` has ended early. Behind an error it may end so with anything. -/
def Ended (p : Parser) (n : Node) (q : Parser) : Prop :=
  q.failed = true ∧ (p.failed = false → n.Faulty)

theorem Broken.ended (h : Broken n q) : Ended p n q :=
  ⟨h.1, fun _ => h.2⟩

theorem tells_nil (h : q.failed = p.failed) : Tells p [] q := by
  simp [Tells, h]

theorem Tells.append (h : Tells p ns q) (h' : Tells q ms r) : Tells p (ns ++ ms) r := by
  unfold Tells at *
  rw [h', h]
  simp only [List.mem_append, or_and_right, exists_or, or_assoc]

/-- A step that reads no node may follow. -/
theorem Tells.trans_nil (h : Tells p ns q) (h' : r.failed = q.failed) : Tells p ns r := by
  unfold Tells at *
  rw [h', h]

/-- The new node shows what its parts show. -/
theorem Tells.node (h : Tells p n.children q) (hn : n.isInvalid = false)
    (hr : r.failed = q.failed) : Tells p [n] r := by
  unfold Tells at *
  rw [hr, h]
  simp [faulty_iff (n := n), hn]

theorem Tells.cons (h : Tells p [n] q) (h' : Tells q ns r) : Tells p (n :: ns) r :=
  h.append h'

/-- A part that shows no error was there before. -/
theorem Tells.behind (h : Tells p ns q) (ha : ¬ a.Faulty) : Tells p (a :: ns) q := by
  unfold Tells at *
  rw [h]
  simp [ha]

theorem Tells.broken (h : Tells p [n] q) (hn : n.isInvalid = true) : Broken n q :=
  ⟨h.2 (.inr ⟨n, by simp, faulty_of_isInvalid hn⟩), faulty_of_isInvalid hn⟩

theorem Ended.tells (h : Ended p n q) : Tells p [n] q := by
  cases hp : p.failed with
  | true => simp [Tells, h.1, hp]
  | false => simp [Tells, h.1, h.2 hp]

theorem broken_invalid {t : Tag} {message : String} (h : q.failed = true) :
    Broken (.invalid t message) q :=
  ⟨h, faulty_of_isInvalid rfl⟩

/-! ## Steps of readers -/

section Steps

variable {α : Type} {k : Token.Kind} {E : Node → Parser → Prop}

theorem tells_errorAt {place : Location} {message : String} :
    (errorAt place message).Ensures p Broken :=
  ensures_errorAt (broken_invalid rfl)

theorem tells_unexpected {expected : String} : (unexpected expected).Ensures p Broken :=
  ensures_unexpected fun _ _ => broken_invalid rfl

theorem tells_expect {Q : PUnit → Parser → Prop} (hE : ∀ n q, Broken n q → E n q)
    (hQ : ∀ c, Q ⟨⟩ { p with cursor := c }) : (expect k).Ensures p E Q :=
  ensures_expect hQ fun _ _ _ => hE _ _ (broken_invalid rfl)

theorem tells_takeNameOr {what : String} {Q : String → Parser → Prop}
    (hE : ∀ n q, Broken n q → E n q) (hQ : ∀ s c, Q s { p with cursor := c }) :
    (takeNameOr what).Ensures p E Q :=
  ensures_takeNameOr hQ fun _ _ _ => hE _ _ (broken_invalid rfl)

/-- A node made of the parts read, which ends where the last token ended. -/
theorem tells_spanned {start : Location} {build : Tag → Node} {q : Parser}
    (h : ∀ t, Tells p (build t).children q) (hn : ∀ t, (build t).isInvalid = false) :
    Attempt.Ensures (do Reading.node (← spanFrom start) build) q E fun n r => Tells p [n] r :=
  .bind (ensures_lift (ensures_spanFrom fun _ => ensures_lift (ensures_node ((h _).node (hn _) rfl))))

theorem tells_declare {s : String} {place : Location} :
    (Attempt.declare s place).Ensures p Broken fun _ q => Tells p [] q := by
  unfold Attempt.declare
  refine .bind (ensures_lift (ensures_fresh (.bind (ensures_get ?_))))
  dsimp only
  split
  · exact ensures_fail tells_errorAt
  · refine .bind (ensures_lift (ensures_modify (Attempt.ensures_pure (tells_nil rfl))))

theorem tells_nameNode {s : String} {place : Location} :
    (nameNode s place).Ensures p fun n q => Tells p [n] q := by
  unfold nameNode
  refine .bind (ensures_get ?_)
  split
  · exact .bind (ensures_modify (ensures_node ((tells_nil rfl).node rfl rfl)))
  · exact ensures_node ((tells_nil rfl).node rfl rfl)

theorem tells_blockOf {place : Location} {locals : List Declaration} (h : Tells p ns q) :
    (blockOf place ns locals).Ensures q fun n r => Tells p [n] r := by
  unfold blockOf
  split
  · exact ensures_pure h
  · exact ensures_node (h.node rfl rfl)

end Steps

/-! ## The grammar -/

/-- With the given fuel every reader of the grammar shows the errors that it notes. A reader that
continues the node `left` needs to know what that one has shown. -/
structure Candid (fuel : Nat) : Prop where
  expression : ∀ p power, (expression fuel power).Ensures p fun n q => Tells p [n] q
  operations : ∀ {p q left}, Tells p [left] q → ∀ power,
    (operations fuel power left).Ensures q fun n r => Tells p [n] r
  operand : ∀ p power, (operand fuel power).Ensures p (Ended p) fun n q => Tells p [n] q
  operation : ∀ {left}, ¬ left.Faulty → ∀ p,
    (operation fuel left).Ensures p Broken fun n q => Tells p [n] q
  arguments : ∀ p, (arguments fuel).Ensures p Broken fun as q => Tells p as q
  argumentList : ∀ p, (argumentList fuel).Ensures p Broken fun as q => Tells p as q
  named : ∀ p place s, (named fuel place s).Ensures p (Ended p) fun n q => Tells p [n] q
  condition : ∀ p, (condition fuel).Ensures p Broken fun n q => Tells p [n] q
  ifStatement : ∀ p place, (ifStatement fuel place).Ensures p Broken fun n q => Tells p [n] q
  whileStatement : ∀ p place, (whileStatement fuel place).Ensures p Broken fun n q => Tells p [n] q
  doStatement : ∀ p place, (doStatement fuel place).Ensures p Broken fun n q => Tells p [n] q
  declarators : ∀ p, (declarators fuel).Ensures p Broken fun ns q => Tells p ns q
  function : ∀ p place, (function fuel place).Ensures p (Ended p) fun n q => Tells p [n] q
  functionParts : ∀ p, (functionParts fuel).Ensures p (Ended p) fun parts q => Tells p [parts.2] q
  parameters : ∀ p, (parameters fuel).Ensures p Broken fun _ q => Tells p [] q
  returnStatement : ∀ p place,
    (returnStatement fuel place).Ensures p Broken fun n q => Tells p [n] q
  block : ∀ p place, (block fuel place).Ensures p fun n q => Tells p [n] q
  statement : ∀ p, (statement fuel).Ensures p fun n q => Tells p [n] q
  statements : ∀ p closing, (statements fuel closing).Ensures p fun ns q => Tells p ns q

theorem candid_zero : Candid 0 where
  expression _ _ := ensures_outOfFuel
  operations _ _ := ensures_outOfFuel
  operand _ _ := ensures_lift ensures_outOfFuel
  operation _ _ := ensures_lift ensures_outOfFuel
  arguments _ := ensures_lift ensures_outOfFuel
  argumentList _ := ensures_lift ensures_outOfFuel
  named _ _ _ := ensures_lift ensures_outOfFuel
  condition _ := ensures_lift ensures_outOfFuel
  ifStatement _ _ := ensures_lift ensures_outOfFuel
  whileStatement _ _ := ensures_lift ensures_outOfFuel
  doStatement _ _ := ensures_lift ensures_outOfFuel
  declarators _ := ensures_lift ensures_outOfFuel
  function _ _ := ensures_lift ensures_outOfFuel
  functionParts _ := ensures_lift ensures_outOfFuel
  parameters _ := ensures_lift ensures_outOfFuel
  returnStatement _ _ := ensures_lift ensures_outOfFuel
  block _ _ := ensures_outOfFuel
  statement _ := ensures_outOfFuel
  statements _ _ := ensures_outOfFuel

namespace Candid

variable {fuel power : Nat} {left : Node} {place : Location} (ih : Candid fuel)
include ih

/-! ### Expressions -/

theorem expression_succ (p : Parser) :
    (Parser.expression (fuel + 1) power).Ensures p fun n q => Tells p [n] q := by
  rw [Parser.expression]
  refine .bind (ensures_kind fun k => ?_)
  split
  · refine tells_unexpected.mono fun n q hn => ?_
    simp [Tells, hn.1, hn.2]
  · refine .bind (ensures_orError ((ih.operand p power).mono (fun n q hn => ?_) fun n q hn => ?_))
    · exact ih.operations hn.tells power
    · exact ih.operations hn power

theorem operations_succ (h : Tells p [left] q) :
    (Parser.operations (fuel + 1) power left).Ensures q fun n r => Tells p [n] r := by
  rw [Parser.operations]
  refine .bind (ensures_kind fun k => .bind (ensures_hasFailed ?_))
  split
  · rename_i hc
    -- An operation is only read where no error has been noted.
    have hq : q.failed = false := by simp_all
    have hpl : p.failed = false ∧ ¬ left.Faulty := by
      simpa [Tells, hq, not_or] using h
    refine .bind (ensures_orError ((ih.operation hpl.2 q).mono (fun n r hn => ?_) fun n r hn => ?_))
    · exact ih.operations (by simp [Tells, hn.1, hn.2]) power
    · exact ih.operations (by simpa [Tells, hq, hpl.1] using hn) power
  · exact ensures_pure h

/-- An expression that may not be an error node. -/
theorem valid_expression {α : Type} {E : Node → Parser → Prop} {Q : α → Parser → Prop}
    {f : Node → Attempt α} (hE : ∀ n r, Broken n r → E n r)
    (hQ : ∀ n r, Tells q [n] r → (f n).Ensures r E Q) :
    Attempt.Ensures (do f (← valid (← Parser.expression fuel power))) q E Q :=
  .bind (ensures_lift ((ih.expression q power).mono fun n r hr =>
    .bind (ensures_valid (fun _ => hQ n r hr) fun hn => hE n r (hr.broken hn))))

theorem operand_succ (p : Parser) :
    (Parser.operand (fuel + 1) power).Ensures p (Ended p) fun n q => Tells p [n] q := by
  rw [Parser.operand]
  refine .bind (ensures_lift (ensures_here fun place => .bind (ensures_get ?_)))
  dsimp only
  have literal : ∀ v : Value, Attempt.Ensures (do forward; Reading.node place (.constant · v)) p
      (Ended p) fun n q => Tells p [n] q := fun v =>
    .bind (ensures_lift (ensures_forward fun c => ensures_lift (ensures_node
      ((tells_nil rfl).node rfl rfl))))
  have adjusted : ∀ change, Attempt.Ensures (do
      forward
      let n ← valid (← Parser.expression fuel unaryPower)
      if n.isAssignable then Reading.node (← spanFrom place) (.adjust · change n)
      else fail (errorAt n.place notAdjustable)) p (Ended p) fun n q => Tells p [n] q := by
    intro change
    refine .bind (ensures_lift (ensures_forward fun c => ?_))
    refine ih.valid_expression (fun _ _ hn => hn.ended) fun n q hr => ?_
    split
    · exact tells_spanned (fun _ => hr) fun _ => rfl
    · exact ensures_fail (tells_errorAt.mono fun _ _ hn => hn.ended)
  split
  · exact literal _
  · exact literal _
  · exact ensures_fail (tells_errorAt.mono fun _ _ hn => hn.ended)
  · exact adjusted _
  · exact adjusted _
  · exact ih.named p place _
  · refine .bind (ensures_lift (ensures_forward fun c => ?_))
    refine ih.valid_expression (fun _ _ hn => hn.ended) fun n q hr => ?_
    exact .bind (tells_expect (fun _ _ hn => hn.ended) fun c => Attempt.ensures_pure
      (hr.trans_nil rfl))
  · refine .bind (ensures_lift (ensures_forward fun c => ?_))
    exact ensures_lift (ih.block _ place)
  · split
    · refine .bind (ensures_lift (ensures_forward fun c => ?_))
      refine .bind (ensures_lift ((ih.expression _ unaryPower).mono fun n q hr => ?_))
      exact tells_spanned (fun _ => hr) fun _ => rfl
    · split
      · exact ensures_lift (ensures_node ((tells_nil rfl).node rfl rfl))
      · exact ensures_fail (tells_unexpected.mono fun _ _ hn => hn.ended)

theorem operation_succ (hl : ¬ left.Faulty) (p : Parser) :
    (Parser.operation (fuel + 1) left).Ensures p Broken fun n q => Tells p [n] q := by
  rw [Parser.operation]
  refine .bind (ensures_lift (ensures_kind fun k => ?_))
  have adjusted : ∀ change, Attempt.Ensures (do
      if left.isAssignable then
        forward
        Reading.node (← spanFrom left.place) (.adjust · change left)
      else fail (errorAt left.place notAdjustable)) p Broken fun n q => Tells p [n] q := by
    intro change
    split
    · refine .bind (ensures_lift (ensures_forward fun c => ?_))
      exact tells_spanned (fun _ => (tells_nil rfl).behind hl) fun _ => rfl
    · exact ensures_fail tells_errorAt
  split
  · refine .bind (ensures_lift (ensures_forward fun c => ?_))
    refine .bind (ensures_lift ((ih.expression _ _).mono fun n q hr => ?_))
    exact ensures_lift (ensures_node ((hr.behind hl).node rfl rfl))
  · refine .bind (ensures_lift (ensures_forward fun c => ?_))
    refine .bind (tells_takeNameOr (fun _ _ hn => hn) fun s c => ?_)
    exact tells_spanned (fun _ => (tells_nil rfl).behind hl) fun _ => rfl
  · refine .bind (ensures_lift (ensures_forward fun c => ?_))
    refine ih.valid_expression (fun _ _ hn => hn) fun n q hr => ?_
    refine .bind (tells_expect (fun _ _ hn => hn) fun c => ?_)
    exact tells_spanned (fun _ => (hr.trans_nil rfl).behind hl) fun _ => rfl
  · refine .bind (ensures_lift (ensures_forward fun c => ?_))
    refine .bind ((ih.arguments _).mono (fun _ _ hn => hn) fun as q hr => ?_)
    exact tells_spanned (fun _ => hr.behind hl) fun _ => rfl
  · refine .bind (ensures_lift (ensures_forward fun c => ?_))
    refine ih.valid_expression (fun _ _ hn => hn) fun a q ha => ?_
    refine .bind (tells_expect (fun _ _ hn => hn) fun c => ?_)
    refine .bind (ensures_lift ((ih.expression _ _).mono fun b r hb => ?_))
    exact ensures_lift (ensures_node (((ha.cons hb).behind hl).node rfl rfl))
  · split
    · refine .bind (ensures_lift (ensures_forward fun c => ?_))
      refine .bind (ensures_lift ((ih.expression _ _).mono fun n q hr => ?_))
      exact ensures_lift (ensures_node ((hr.behind hl).node rfl rfl))
    · exact ensures_fail tells_errorAt
  · split
    · refine .bind (ensures_lift (ensures_forward fun c => ?_))
      refine .bind (ensures_lift ((ih.expression _ _).mono fun n q hr => ?_))
      refine .bind (ensures_lift (ensures_node (ensures_lift (ensures_node ?_))))
      exact (((hr.behind hl).node rfl rfl).behind hl).node rfl rfl
    · exact ensures_fail tells_errorAt
  · exact adjusted _
  · exact adjusted _
  · exact ensures_fail tells_unexpected

theorem arguments_succ (p : Parser) :
    (Parser.arguments (fuel + 1)).Ensures p Broken fun as q => Tells p as q := by
  rw [Parser.arguments]
  refine .bind (ensures_lift (ensures_accept fun b c => ?_))
  split
  · exact Attempt.ensures_pure (tells_nil rfl)
  · refine .bind ((ih.argumentList _).mono (fun _ _ hn => hn) fun as q hr => ?_)
    exact .bind (tells_expect (fun _ _ hn => hn) fun c => Attempt.ensures_pure (hr.trans_nil rfl))

theorem argumentList_succ (p : Parser) :
    (Parser.argumentList (fuel + 1)).Ensures p Broken fun as q => Tells p as q := by
  rw [Parser.argumentList]
  refine ih.valid_expression (fun _ _ hn => hn) fun a q ha => ?_
  refine .bind (ensures_lift (ensures_accept fun b c => ?_))
  split
  · refine .bind ((ih.argumentList _).mono (fun _ _ hn => hn) fun as r hr => ?_)
    exact Attempt.ensures_pure (ha.cons hr)
  · exact Attempt.ensures_pure (ha.trans_nil rfl)

/-! ### Statements -/

theorem condition_succ (p : Parser) :
    (Parser.condition (fuel + 1)).Ensures p Broken fun n q => Tells p [n] q := by
  rw [Parser.condition]
  refine .bind (tells_expect (fun _ _ hn => hn) fun c => ?_)
  refine ih.valid_expression (fun _ _ hn => hn) fun n q hr => ?_
  exact .bind (tells_expect (fun _ _ hn => hn) fun c => Attempt.ensures_pure (hr.trans_nil rfl))

theorem ifStatement_succ (p : Parser) :
    (Parser.ifStatement (fuel + 1) place).Ensures p Broken fun n q => Tells p [n] q := by
  rw [Parser.ifStatement]
  refine .bind (ensures_lift (ensures_forward fun c => ?_))
  refine .bind ((ih.condition _).mono (fun _ _ hn => hn) fun c q hc => ?_)
  refine .bind (ensures_lift ((ih.statement q).mono fun a r ha => ?_))
  refine .bind (ensures_lift (Reading.Ensures.mono (Q := fun _ r' => r'.failed = r.failed) ?_
    fun otherwise r' hr' => ?_))
  · refine .bind (ensures_hasFailed ?_)
    split
    · exact ensures_pure rfl
    · exact ensures_acceptName fun _ _ => rfl
  · have hca := (hc.cons ha).trans_nil hr'
    split
    · refine .bind (ensures_lift ((ih.statement r').mono fun b r'' hb => ?_))
      exact tells_spanned (fun _ => hca.append hb) fun _ => rfl
    · exact tells_spanned (fun _ => hca) fun _ => rfl

theorem whileStatement_succ (p : Parser) :
    (Parser.whileStatement (fuel + 1) place).Ensures p Broken fun n q => Tells p [n] q := by
  rw [Parser.whileStatement]
  refine .bind (ensures_lift (ensures_forward fun c => ?_))
  refine .bind ((ih.condition _).mono (fun _ _ hn => hn) fun c q hc => ?_)
  refine .bind (ensures_lift ((ih.statement q).mono fun b r hb => ?_))
  exact tells_spanned (fun _ => hc.cons hb) fun _ => rfl

theorem doStatement_succ (p : Parser) :
    (Parser.doStatement (fuel + 1) place).Ensures p Broken fun n q => Tells p [n] q := by
  rw [Parser.doStatement]
  refine .bind (ensures_lift (ensures_forward fun c => ?_))
  refine .bind (ensures_lift ((ih.statement _).mono fun b q hb => ?_))
  refine .bind (ensures_valid (fun _ => ?_) fun hn => hb.broken hn)
  refine .bind (ensures_lift (ensures_acceptName fun found c => ?_))
  split
  · refine .bind ((ih.condition _).mono (fun _ _ hn => hn) fun c r hc => ?_)
    refine tells_spanned (fun _ => ?_) fun _ => rfl
    have hbc : Tells p [b, c] r := hb.cons hc
    simpa [Tells, children, or_comm] using hbc
  · exact ensures_fail tells_unexpected

theorem returnStatement_succ (p : Parser) :
    (Parser.returnStatement (fuel + 1) place).Ensures p Broken fun n q => Tells p [n] q := by
  rw [Parser.returnStatement]
  refine .bind (ensures_lift (ensures_forward fun c => .bind (ensures_lift (ensures_kind fun k => ?_))))
  split
  · exact tells_spanned (fun _ => tells_nil rfl) fun _ => rfl
  · exact tells_spanned (fun _ => tells_nil rfl) fun _ => rfl
  · exact tells_spanned (fun _ => tells_nil rfl) fun _ => rfl
  · refine ih.valid_expression (fun _ _ hn => hn) fun v q hr => ?_
    exact tells_spanned (fun _ => hr) fun _ => rfl

theorem statement_succ (p : Parser) :
    (Parser.statement (fuel + 1)).Ensures p fun n q => Tells p [n] q := by
  rw [Parser.statement]
  refine .bind ((ih.expression p 0).mono fun n q hr => ?_)
  exact .bind (ensures_accept fun _ _ => ensures_pure (hr.trans_nil rfl))

theorem statements_succ (p : Parser) (closing : Option Token.Kind) :
    (Parser.statements (fuel + 1) closing).Ensures p fun ns q => Tells p ns q := by
  unfold Parser.statements
  refine .bind (ensures_hasFailed ?_)
  split
  · exact ensures_pure (tells_nil rfl)
  · refine .bind (Reading.Ensures.mono (Q := fun _ q => q.failed = p.failed) ?_ fun closed q hq => ?_)
    · cases closing with
      | some k => exact ensures_accept fun _ _ => rfl
      | none => exact .bind (ensures_kind fun _ => ensures_pure rfl)
    · split
      · exact ensures_pure (tells_nil hq)
      · refine .bind ((ih.statement q).mono fun n r hn => ?_)
        refine .bind ((ih.statements r closing).mono fun ns r' hr => ensures_pure ?_)
        exact (tells_nil hq).append (hn.cons hr)

/-! ### Declarations, functions and blocks -/

theorem declarators_succ (p : Parser) :
    (Parser.declarators (fuel + 1)).Ensures p Broken fun ns q => Tells p ns q := by
  rw [Parser.declarators]
  refine .bind (ensures_lift (ensures_here fun place => ?_))
  refine .bind (tells_takeNameOr (fun _ _ hn => hn) fun s c => ?_)
  refine .bind (tells_declare.mono (fun _ _ hn => hn) fun d q hd => ?_)
  refine .bind (ensures_lift (ensures_node ?_))
  have ht : ¬ (Node.declare ⟨q.next, place⟩ d).Faulty := by
    rw [faulty_iff]
    simp [isInvalid, children]
  refine .bind (ensures_lift (Reading.Ensures.mono (Q := fun n r => Tells p [n] r) ?_ fun n r hn => ?_))
  · refine .bind (ensures_accept fun b c => ?_)
    split
    · refine .bind ((ih.expression _ _).mono fun v r hr => ensures_node ?_)
      exact ((hd.append hr).behind ht).node rfl rfl
    · exact ensures_pure ((hd.trans_nil rfl).behind ht)
  · refine .bind (ensures_lift (Reading.Ensures.mono (Q := fun _ r' => r'.failed = r.failed) ?_
      fun more r' hr' => ?_))
    · refine .bind (ensures_hasFailed ?_)
      split
      · exact ensures_pure rfl
      · exact ensures_accept fun _ _ => rfl
    · split
      · refine .bind ((ih.declarators r').mono (fun _ _ hn => hn) fun ns r'' hr => ?_)
        exact Attempt.ensures_pure ((hn.trans_nil hr').cons hr)
      · exact Attempt.ensures_pure (hn.trans_nil hr')

theorem parameters_succ (p : Parser) :
    (Parser.parameters (fuel + 1)).Ensures p Broken fun _ q => Tells p [] q := by
  rw [Parser.parameters]
  refine .bind (ensures_lift (ensures_here fun place => ?_))
  refine .bind (tells_takeNameOr (fun _ _ hn => hn) fun s c => ?_)
  refine .bind (tells_declare.mono (fun _ _ hn => hn) fun d q hd => ?_)
  refine .bind (ensures_lift (ensures_accept fun b c => ?_))
  split
  · refine .bind ((ih.parameters _).mono (fun _ _ hn => hn) fun ds r hr => ?_)
    exact Attempt.ensures_pure (hd.append hr)
  · exact Attempt.ensures_pure (hd.trans_nil rfl)

theorem block_succ (p : Parser) :
    (Parser.block (fuel + 1) place).Ensures p fun n q => Tells p [n] q := by
  rw [Parser.block]
  refine .bind (ensures_modify ?_)
  refine .bind ((ih.statements _ _).mono fun ss q hr => ?_)
  refine .bind (ensures_modifyGet ?_)
  have hq : ∀ x : List Declaration × Parser, x.2.failed = q.failed →
      (do blockOf (← spanFrom place) ss x.1).Ensures x.2 fun n r => Tells p [n] r :=
    fun x hx => .bind (ensures_spanFrom fun _ => tells_blockOf (hr.trans_nil hx))
  refine hq _ ?_
  split <;> rfl

theorem functionParts_succ (p : Parser) :
    (Parser.functionParts (fuel + 1)).Ensures p (Ended p) fun parts q => Tells p [parts.2] q := by
  rw [Parser.functionParts]
  refine .bind (tells_expect (fun _ _ hn => hn.ended) fun c => ?_)
  refine .bind (Attempt.Ensures.mono (E := Broken) (Q := fun _ q => Tells p [] q) ?_
    (fun _ _ hn => hn.ended) fun params q hq => ?_)
  · refine .bind (ensures_lift (ensures_accept fun b c => ?_))
    split
    · exact Attempt.ensures_pure (tells_nil rfl)
    · refine .bind ((ih.parameters _).mono (fun _ _ hn => hn) fun ps q hps => ?_)
      exact .bind (tells_expect (fun _ _ hn => hn) fun c => Attempt.ensures_pure
        (hps.trans_nil rfl))
  · refine .bind (ensures_lift (ensures_here fun place => ?_))
    refine .bind (tells_expect (fun _ _ hn => hn.ended) fun c => ?_)
    refine .bind (ensures_lift ((ih.block _ place).mono fun body r hb => ?_))
    have hbody : Tells p [body] r := hq.append hb
    refine .bind (ensures_lift (ensures_hasFailed ?_))
    split
    · rename_i hf
      refine ensures_throw ⟨hf, fun hp => ?_⟩
      simpa [hp] using hbody.1 hf
    · exact Attempt.ensures_pure hbody

theorem function_succ (p : Parser) :
    (Parser.function (fuel + 1) place).Ensures p (Ended p) fun n q => Tells p [n] q := by
  rw [Parser.function]
  refine .bind (ensures_lift (ensures_forward fun c => ?_))
  refine .bind (Attempt.Ensures.mono (E := Broken) (Q := fun _ q => Tells p [] q) ?_
    (fun _ _ hn => hn.ended) fun own q hq => ?_)
  · refine .bind (ensures_lift (ensures_takeName fun s c => ?_))
    cases s with
    | none => exact Attempt.ensures_pure (tells_nil rfl)
    | some s =>
      refine .bind (ensures_get ?_)
      exact .bind (tells_declare.mono (fun _ _ hn => hn) fun d q hd => Attempt.ensures_pure hd)
  · have hqp : q.failed = p.failed := Bool.eq_iff_iff.2 (by simpa [Tells] using hq)
    refine .bind (ensures_lift (ensures_modify (.bind (ensures_lift (ensures_modify ?_)))))
    refine .bind (ensures_outcome ((ih.functionParts _).mono (fun n r hn => ?_) fun parts r hr => ?_))
    · refine .bind (ensures_lift (ensures_modifyGet (.bind (ensures_lift (ensures_modifyGet ?_)))))
      dsimp only
      refine ensures_throw ⟨?_, fun hp => hn.2 (hqp.trans hp)⟩
      split <;> exact hn.1
    · refine .bind (ensures_lift (ensures_modifyGet (.bind (ensures_lift (ensures_modifyGet ?_)))))
      dsimp only
      refine tells_spanned (fun _ => ?_) fun _ => rfl
      have hp : Tells p [parts.2] r := hq.append hr
      split <;> exact hp.trans_nil rfl

theorem named_succ (p : Parser) (s : String) :
    (Parser.named (fuel + 1) place s).Ensures p (Ended p) fun n q => Tells p [n] q := by
  unfold Parser.named
  have leaf : ∀ build : Tag → Node, (∀ t, (build t).children = [] ∧ (build t).isInvalid = false) →
      Attempt.Ensures (do forward; Reading.node place build) p (Ended p) fun n q => Tells p [n] q := by
    intro build hb
    refine .bind (ensures_lift (ensures_forward fun c => ensures_lift (ensures_node ?_)))
    exact Tells.node (by rw [(hb _).1]; exact tells_nil rfl) (hb _).2 rfl
  split
  · exact leaf _ fun t => ⟨rfl, rfl⟩
  · split
    · exact (ih.ifStatement p place).mono (fun _ _ hn => hn.ended) fun _ _ hr => hr
    · exact (ih.whileStatement p place).mono (fun _ _ hn => hn.ended) fun _ _ hr => hr
    · exact (ih.doStatement p place).mono (fun _ _ hn => hn.ended) fun _ _ hr => hr
    · refine .bind (ensures_lift (ensures_forward fun c => ?_))
      refine .bind ((ih.declarators _).mono (fun _ _ hn => hn.ended) fun ds q hr => ?_)
      exact .bind (ensures_lift (ensures_spanFrom fun _ => ensures_lift (tells_blockOf hr)))
    · exact ih.function p place
    · exact leaf _ fun t => ⟨rfl, rfl⟩
    · exact leaf _ fun t => ⟨rfl, rfl⟩
    · exact (ih.returnStatement p place).mono (fun _ _ hn => hn.ended) fun _ _ hr => hr
    · exact ensures_fail (tells_errorAt.mono fun _ _ hn => hn.ended)
    · refine .bind (ensures_lift (ensures_forward fun c => ?_))
      exact ensures_lift tells_nameNode

theorem succ : Candid (fuel + 1) where
  expression p _ := ih.expression_succ p
  operations h _ := ih.operations_succ h
  operand p _ := ih.operand_succ p
  operation hl p := ih.operation_succ hl p
  arguments p := ih.arguments_succ p
  argumentList p := ih.argumentList_succ p
  named p _ s := ih.named_succ p s
  condition p := ih.condition_succ p
  ifStatement p _ := ih.ifStatement_succ p
  whileStatement p _ := ih.whileStatement_succ p
  doStatement p _ := ih.doStatement_succ p
  declarators p := ih.declarators_succ p
  function p _ := ih.function_succ p
  functionParts p := ih.functionParts_succ p
  parameters p := ih.parameters_succ p
  returnStatement p _ := ih.returnStatement_succ p
  block p _ := ih.block_succ p
  statement p := ih.statement_succ p
  statements p closing := ih.statements_succ p closing

end Candid

/-- **Every reader of the grammar shows the errors that it notes.** -/
theorem candid (fuel : Nat) : Candid fuel := by
  induction fuel with
  | zero => exact candid_zero
  | succ fuel ih => exact ih.succ

end Parser

end Steppable
