import Steppable.Proofs.Parser.Realisation

/-!
# Reading ends

Whatever the source is, every reader of the grammar comes to an end (`halting`): with eight units of
fuel for each token ahead, and a few more depending on the reader, the fuel does not run out. Each
round of a loop and each nested reader passes a token or notes an error. There is one exception: an
empty statement is read without passing its semicolon, which the statement around it then passes.
-/

namespace Steppable

variable {α β : Type} {p : Parser}

/-! ## Attempts that end -/

/-- The attempt ends, early in a parser that satisfies `E`, or else with what satisfies `Q`. -/
def Attempt.Settles (x : Attempt α) (p : Parser) (E : Parser → Prop) (Q : α → Parser → Prop) :
    Prop :=
  Reading.Yields x.run p fun r q =>
    match r with
    | .ok a => Q a q
    | .error _ => E q

namespace Attempt

open Reading

variable {x : Attempt α} {f : α → Attempt β} {E E' : Parser → Prop} {Q Q' : α → Parser → Prop}
  {R : β → Parser → Prop}

theorem Settles.mono (h : x.Settles p E Q) (hE : ∀ q, E q → E' q) (hQ : ∀ a q, Q a q → Q' a q) :
    x.Settles p E' Q' := by
  refine Reading.Yields.mono h fun r q hr => ?_
  cases r with
  | ok a => exact hQ a q hr
  | error n => exact hE q hr

theorem settles_pure {a : α} (h : Q a p) : (pure a : Attempt α).Settles p E Q :=
  ⟨.ok a, p, rfl, h⟩

theorem settles_throw {n : Node} (h : E p) : (throw n : Attempt α).Settles p E Q :=
  ⟨.error n, p, rfl, h⟩

theorem Settles.bind (h : x.Settles p E fun a q => (f a).Settles q E R) :
    (x >>= f).Settles p E R := by
  refine Reading.Yields.bind (Reading.Yields.mono h fun r q hr => ?_)
  cases r with
  | ok a => exact hr
  | error n => exact show (throw n : Attempt β).Settles q E R from settles_throw hr

theorem settles_lift {y : Reading α} (h : y.Yields p Q) : (liftM y : Attempt α).Settles p E Q := by
  show Reading.Yields (y >>= fun a => pure (Except.ok a) : Reading (Except Node α)) p _
  exact Reading.Yields.bind (h.mono fun a q ha => Reading.yields_pure ha)

theorem settles_get {Q : Parser → Parser → Prop} (h : Q p p) :
    (get : Attempt Parser).Settles p E Q :=
  settles_lift (Reading.yields_get h)

theorem settles_fail {e : Reading Node} (h : e.Yields p fun _ q => E q) :
    (fail e : Attempt α).Settles p E Q :=
  .bind (settles_lift (h.mono fun _ _ hn => settles_throw hn))

theorem settles_outcome {Q : Except Node α → Parser → Prop}
    (h : x.Settles p (fun q => ∀ n, Q (.error n) q) fun a q => Q (.ok a) q) :
    (outcome x).Settles p E Q := by
  refine settles_lift (Reading.Yields.mono h fun r q hr => ?_)
  cases r with
  | ok a => exact hr
  | error n => exact hr n

theorem yields_ending {y : Attempt Node} {Q : Parser → Prop} (h : y.Settles p Q fun _ q => Q q) :
    (orError y).Yields p fun _ q => Q q := by
  refine Reading.Yields.bind (Reading.Yields.mono h fun r q hr => ?_)
  cases r with
  | ok a => exact Reading.yields_pure hr
  | error n => exact Reading.yields_pure hr

theorem settles_valid {n : Node} {Q : Node → Parser → Prop} (hE : E p) (hQ : Q n p) :
    (valid n).Settles p E Q := by
  unfold valid
  split
  · exact settles_throw hE
  · exact settles_pure hQ

end Attempt

namespace Parser

open Reading Attempt

variable {q r : Parser} {k : Token.Kind}

/-! ## Going on -/

/-- Reading has gone on from `p` to `q`: what is ahead of `q` was ahead of `p`, and an error that was
noted is noted still. -/
structure Passes (p q : Parser) : Prop where
  outlook : q.outlook <:+ p.outlook
  failed : p.failed = true → q.failed = true

/-- Reading has gone on and at least one token has been passed. -/
structure Takes (p q : Parser) : Prop extends Passes p q where
  shorter : q.outlook.length < p.outlook.length

/-- Reading has gone on, and a token has been passed or an error noted. -/
structure Advances (p q : Parser) : Prop extends Passes p q where
  moved : q.failed = true ∨ q.outlook.length < p.outlook.length

theorem Passes.refl (p : Parser) : Passes p p :=
  ⟨List.suffix_rfl, id⟩

theorem Passes.trans (h : Passes p q) (h' : Passes q r) : Passes p r :=
  ⟨h'.outlook.trans h.outlook, fun hp => h'.failed (h.failed hp)⟩

theorem Passes.length_le (h : Passes p q) : q.outlook.length ≤ p.outlook.length :=
  h.outlook.length_le

theorem Takes.advances (h : Takes p q) : Advances p q :=
  ⟨h.toPasses, .inr h.shorter⟩

theorem Takes.trans (h : Takes p q) (h' : Passes q r) : Takes p r :=
  ⟨h.toPasses.trans h', Nat.lt_of_le_of_lt h'.length_le h.shorter⟩

theorem Passes.takes (h : Passes p q) (h' : Takes q r) : Takes p r :=
  ⟨h.trans h'.toPasses, Nat.lt_of_lt_of_le h'.shorter h.length_le⟩

theorem Advances.trans (h : Advances p q) (h' : Passes q r) : Advances p r := by
  refine ⟨h.toPasses.trans h', ?_⟩
  rcases h.moved with hq | hq
  · exact .inl (h'.failed hq)
  · exact .inr (Nat.lt_of_le_of_lt h'.length_le hq)

theorem Passes.advances (h : Passes p q) (h' : Advances q r) : Advances p r := by
  refine ⟨h.trans h'.toPasses, ?_⟩
  rcases h'.moved with hr | hr
  · exact .inl hr
  · exact .inr (Nat.lt_of_lt_of_le hr h.length_le)

theorem outlook_ne_nil (p : Parser) : p.outlook ≠ [] := by
  simp [outlook, Cursor.outlook]

theorem Passes.proper (h : Passes p q) (hp : Token.Proper p.outlook) : Token.Proper q.outlook := by
  obtain ⟨us, e, hts, he, hus⟩ := hp
  obtain ⟨vs, hvs⟩ := h.outlook
  obtain ⟨ws, e', hw⟩ : ∃ ws e', q.outlook = ws ++ [e'] :=
    ⟨_, _, (List.dropLast_concat_getLast (outlook_ne_nil q)).symm⟩
  rw [hw, hts, ← List.append_assoc] at hvs
  obtain ⟨hv, he'⟩ := List.append_inj' hvs rfl
  obtain rfl := (List.cons.inj he').1
  exact ⟨ws, e', hw, he, fun u hu => hus u (hv ▸ List.mem_append_right _ hu)⟩

/-! ## Steps of readers -/

section Steps

variable {E : Parser → Prop}

/-- Behind a token that is not the last one there is another. -/
theorem takes_forward (hp : Token.Proper p.outlook) (hl : p.cursor.current.kind.isLast = false) :
    Takes p { p with cursor := p.cursor.forward } := by
  have ho : p.outlook = _ :: Parser.outlook { p with cursor := p.cursor.forward } :=
    Cursor.outlook_forward hp hl
  exact ⟨⟨ho ▸ List.suffix_cons _ _, id⟩, by rw [ho]; exact Nat.lt_succ_self _⟩

theorem takes_next {Q : PUnit → Parser → Prop} (hp : Token.Proper p.outlook)
    (hl : p.cursor.current.kind.isLast = false) (hQ : ∀ q, Takes p q → Q ⟨⟩ q) :
    forward.Yields p Q :=
  yields_modifyGet (hQ _ (takes_forward hp hl))

/-- A token of the kind is passed, or nothing happens. -/
theorem takes_accept {Q : Bool → Parser → Prop} (hp : Token.Proper p.outlook)
    (hk : k.isLast = false) (ht : ∀ q, Takes p q → Q true q)
    (hf : p.cursor.current.kind ≠ k → Q false p) : (accept k).Yields p Q := by
  refine yields_modifyGet ?_
  by_cases hc : p.cursor.current.kind = k
  · rw [show p.cursor.accept k = (true, p.cursor.forward) from if_pos hc]
    exact ht _ (takes_forward hp (hc ▸ hk))
  · rw [show p.cursor.accept k = (false, p.cursor) from if_neg hc]
    exact hf hc

theorem takes_acceptName {s : String} {Q : Bool → Parser → Prop} (hp : Token.Proper p.outlook)
    (hQ : ∀ b q, Passes p q → Q b q) : (acceptName s).Yields p Q := by
  refine yields_modifyGet ?_
  by_cases hc : p.cursor.isNamed s = true
  · rw [show p.cursor.acceptName s = (true, p.cursor.forward) from if_pos hc]
    have hk : p.cursor.current.kind = .identifier := Token.kind_of_isWord hc
    exact hQ _ _ (takes_forward hp (by rw [hk]; rfl)).toPasses
  · rw [show p.cursor.acceptName s = (false, p.cursor) from if_neg hc]
    exact hQ _ _ (.refl p)

theorem takes_takeName {Q : Option String → Parser → Prop} (hp : Token.Proper p.outlook)
    (hs : ∀ s q, Takes p q → Q (some s) q) (hn : Q none p) : takeName.Yields p Q := by
  refine yields_modifyGet ?_
  by_cases hc : p.cursor.current.kind.isIdentifier = true
  · rw [show p.cursor.takeText .identifier = (some p.cursor.current.text, p.cursor.forward) from
      if_pos hc]
    have hk := Token.kind_of_isIdentifier hc
    exact hs _ _ (takes_forward hp (by rw [hk]; rfl))
  · rw [show p.cursor.takeText .identifier = (none, p.cursor) from if_neg hc]
    exact hn

theorem yields_errorAt {place : Location} {message : String} :
    (errorAt place message).Yields p fun _ q => Advances p q :=
  .bind (yields_modifyGet (yields_node fun _ => ⟨⟨List.suffix_rfl, fun _ => rfl⟩, .inl rfl⟩))

theorem yields_unexpected {expected : String} :
    (unexpected expected).Yields p fun _ q => Advances p q :=
  .bind (yields_here fun _ => .bind (yields_kind yields_errorAt))

theorem settles_error {place : Location} {message : String} {Q : α → Parser → Prop}
    (hE : ∀ q, Advances p q → E q) : (fail (errorAt place message) : Attempt α).Settles p E Q :=
  settles_fail (yields_errorAt.mono fun _ => hE)

theorem settles_unexpected {expected : String} {Q : α → Parser → Prop}
    (hE : ∀ q, Advances p q → E q) : (fail (unexpected expected) : Attempt α).Settles p E Q :=
  settles_fail (yields_unexpected.mono fun _ => hE)

theorem settles_expect {Q : PUnit → Parser → Prop} (hp : Token.Proper p.outlook)
    (hk : k.isLast = false) (hE : ∀ q, Advances p q → E q) (hQ : ∀ q, Takes p q → Q ⟨⟩ q) :
    (expect k).Settles p E Q := by
  refine .bind (settles_lift (takes_accept hp hk (fun q hq => ?_) fun _ => ?_))
  · exact settles_pure (hQ q hq)
  · exact settles_unexpected hE

theorem settles_takeNameOr {what : String} {Q : String → Parser → Prop}
    (hp : Token.Proper p.outlook) (hE : ∀ q, Advances p q → E q)
    (hQ : ∀ s q, Takes p q → Q s q) : (takeNameOr what).Settles p E Q := by
  refine .bind (settles_lift (takes_takeName hp (fun s q hq => ?_) ?_))
  · exact settles_pure (hQ s q hq)
  · exact settles_unexpected hE

theorem settles_declare {s : String} {place : Location} {Q : Declaration → Parser → Prop}
    (hE : ∀ q, Advances p q → E q) (hQ : ∀ d q, Passes p q → Q d q) :
    (Attempt.declare s place).Settles p E Q := by
  unfold Attempt.declare
  refine .bind (settles_lift (yields_modifyGet (.bind (settles_get ?_))))
  dsimp only
  split
  · exact settles_error fun q hq => hE q ⟨⟨hq.outlook, hq.failed⟩, hq.moved⟩
  · exact .bind (settles_lift (yields_modifyGet (settles_pure (hQ _ _ ⟨List.suffix_rfl, id⟩))))

/-- A node is made at the end. -/
theorem settles_spanned {start : Location} {build : Tag → Node} {Q : Node → Parser → Prop}
    (hQ : ∀ n q, Passes p q → Q n q) :
    Attempt.Settles (do Reading.node (← spanFrom start) build) p E Q :=
  .bind (settles_lift (yields_spanFrom fun _ => settles_lift (yields_node fun _ =>
    hQ _ _ ⟨List.suffix_rfl, id⟩)))

theorem passes_node {place : Location} {build : Tag → Node} :
    (Reading.node place build).Yields p fun _ q => Passes p q :=
  yields_node fun _ => ⟨List.suffix_rfl, id⟩

theorem passes_blockOf {place : Location} {ss : List Node} {locals : List Declaration} :
    (blockOf place ss locals).Yields p fun _ q => Passes p q := by
  unfold blockOf
  split
  · exact yields_pure (.refl p)
  · exact passes_node

theorem passes_nameNode {s : String} {place : Location} :
    (nameNode s place).Yields p fun _ q => Passes p q := by
  unfold nameNode
  refine .bind (yields_get ?_)
  split
  · exact .bind (yields_modifyGet (yields_node fun _ => ⟨List.suffix_rfl, id⟩))
  · exact passes_node

theorem passes_closeScope : closeScope.Yields p fun _ q => Passes p q := by
  refine yields_modifyGet ?_
  split
  · exact ⟨List.suffix_rfl, id⟩
  · exact .refl p

end Steps

/-! ## The grammar -/

/-- What has been read is an expression: reading has advanced, or there was nothing to read before a
semicolon. -/
structure Reaches (p q : Parser) : Prop extends Passes p q where
  moved : Advances p q ∨ q.cursor.current.kind = .semicolon

theorem Advances.reaches (h : Advances p q) : Reaches p q :=
  ⟨h.toPasses, .inl h⟩

/-- The parser stands before a text that ends, and the fuel covers eight units for each token of it
and `base` more. -/
structure Fuelled (base fuel : Nat) (p : Parser) : Prop where
  proper : Token.Proper p.outlook
  enough : 8 * p.outlook.length + base ≤ fuel

section Fuel

variable {b c fuel : Nat}

/-- There is always a token. -/
theorem Fuelled.pos (h : Fuelled b fuel p) : 8 ≤ fuel := by
  have := List.length_pos_iff.2 (outlook_ne_nil p)
  have := h.enough
  omega

theorem Fuelled.pass (h : Fuelled b (fuel + 1) p) (hq : Passes p q) (hc : c + 1 ≤ b) :
    Fuelled c fuel q := by
  have := hq.length_le
  have := h.enough
  exact ⟨hq.proper h.proper, by omega⟩

/-- Behind a token there are eight units more to spend. -/
theorem Fuelled.take (h : Fuelled b (fuel + 1) p) (hq : Takes p q) (hc : c ≤ b + 7) :
    Fuelled c fuel q := by
  have := hq.shorter
  have := h.enough
  exact ⟨hq.toPasses.proper h.proper, by omega⟩

end Fuel

/-- With enough fuel every reader ends. What it needs beside eight units for each token is what it
spends before it passes the next one. -/
structure Halting (fuel : Nat) : Prop where
  expression {p : Parser} (h : Fuelled 3 fuel p) (power : Nat) :
    (expression fuel power).Yields p fun _ => Reaches p
  operations {p : Parser} (h : 0 < fuel ∧ p.failed = true ∨ Fuelled 1 fuel p) (power : Nat)
    (left : Node) : (operations fuel power left).Yields p fun _ q =>
      Passes p q ∧ (Advances p q ∨ q.cursor.current.kind = p.cursor.current.kind)
  operand {p : Parser} (h : Fuelled 2 fuel p) (hl : p.cursor.current.kind.isLast = false)
    (power : Nat) : (operand fuel power).Settles p (Reaches p) fun _ => Reaches p
  operation {p : Parser} (h : Fuelled 0 fuel p) (hl : p.cursor.current.kind.isLast = false)
    (left : Node) : (operation fuel left).Settles p (Advances p) fun _ => Advances p
  arguments {p : Parser} (h : Fuelled 5 fuel p) :
    (arguments fuel).Settles p (Passes p) fun _ => Passes p
  argumentList {p : Parser} (h : Fuelled 4 fuel p) :
    (argumentList fuel).Settles p (Passes p) fun _ => Passes p
  named {p : Parser} (h : Fuelled 1 fuel p) (hl : p.cursor.current.kind.isLast = false)
    (place : Location) (s : String) :
    (named fuel place s).Settles p (Advances p) fun _ => Advances p
  condition {p : Parser} (h : Fuelled 4 fuel p) :
    (condition fuel).Settles p (Passes p) fun _ => Passes p
  ifStatement {p : Parser} (h : Fuelled 0 fuel p) (hl : p.cursor.current.kind.isLast = false)
    (place : Location) : (ifStatement fuel place).Settles p (Advances p) fun _ => Advances p
  whileStatement {p : Parser} (h : Fuelled 0 fuel p) (hl : p.cursor.current.kind.isLast = false)
    (place : Location) : (whileStatement fuel place).Settles p (Advances p) fun _ => Advances p
  doStatement {p : Parser} (h : Fuelled 0 fuel p) (hl : p.cursor.current.kind.isLast = false)
    (place : Location) : (doStatement fuel place).Settles p (Advances p) fun _ => Advances p
  declarators {p : Parser} (h : Fuelled 0 fuel p) :
    (declarators fuel).Settles p (Passes p) fun _ => Passes p
  function {p : Parser} (h : Fuelled 0 fuel p) (hl : p.cursor.current.kind.isLast = false)
    (place : Location) : (function fuel place).Settles p (Advances p) fun _ => Advances p
  functionParts {p : Parser} (h : Fuelled 7 fuel p) :
    (functionParts fuel).Settles p (Passes p) fun _ => Passes p
  parameters {p : Parser} (h : Fuelled 0 fuel p) :
    (parameters fuel).Settles p (Passes p) fun _ => Passes p
  returnStatement {p : Parser} (h : Fuelled 0 fuel p) (hl : p.cursor.current.kind.isLast = false)
    (place : Location) : (returnStatement fuel place).Settles p (Advances p) fun _ => Advances p
  block {p : Parser} (h : Fuelled 6 fuel p) (place : Location) :
    (block fuel place).Yields p fun _ => Passes p
  statement {p : Parser} (h : Fuelled 4 fuel p) : (statement fuel).Yields p fun _ => Advances p
  statements {p : Parser} (h : 0 < fuel ∧ p.failed = true ∨ Fuelled 5 fuel p)
    (closing : Option Token.Kind) (hc : ∀ k ∈ closing, k.isLast = false) :
    (statements fuel closing).Yields p fun _ => Passes p

theorem halting_zero : Halting 0 := by
  have spent : ∀ {b : Nat} {p : Parser}, ¬ Fuelled b 0 p := fun h => by simpa using h.pos
  constructor <;> intros <;> exact (by simp_all)

namespace Halting

variable {fuel : Nat} {place : Location} (ih : Halting fuel)

include ih

/-- An expression that the reader around it wants to be valid; it may use what has been passed. -/
theorem valid_expression {E : Parser → Prop} {f : Node → Attempt α} {Q : α → Parser → Prop}
    {power : Nat} (h : Fuelled 3 fuel p) (hE : ∀ q, Passes p q → E q)
    (hf : ∀ n q, Passes p q → (f n).Settles q E Q) :
    Attempt.Settles (do f (← valid (← Parser.expression fuel power))) p E Q := by
  refine .bind (settles_lift ((ih.expression h power).mono fun n q hq => ?_))
  exact .bind (settles_valid (hE q hq.toPasses) (hf n q hq.toPasses))

/-! ### Expressions -/

theorem expression_succ (h : Fuelled 3 (fuel + 1) p) (power : Nat) :
    (Parser.expression (fuel + 1) power).Yields p fun _ => Reaches p := by
  rw [Parser.expression]
  refine .bind (yields_kind ?_)
  split
  · exact yields_unexpected.mono fun _ q hq => hq.reaches
  · rename_i hl
    have hop := ih.operand (h.pass (.refl p) (by omega)) (Bool.eq_false_iff.2 hl) power
    refine .bind ((yields_ending hop).mono fun left q hq => ?_)
    refine (ih.operations (.inr (h.pass hq.toPasses (by omega))) power left).mono fun _ r hr => ?_
    refine ⟨hq.toPasses.trans hr.1, ?_⟩
    rcases hq.moved, hr.2 with ⟨ha | hs, ha' | hs'⟩
    · exact .inl (ha.trans hr.1)
    · exact .inl (ha.trans hr.1)
    · exact .inl (hq.toPasses.advances ha')
    · exact .inr (hs'.trans hs)

theorem operations_succ (h : 0 < fuel + 1 ∧ p.failed = true ∨ Fuelled 1 (fuel + 1) p) (power : Nat)
    (left : Node) : (Parser.operations (fuel + 1) power left).Yields p fun _ q =>
      Passes p q ∧ (Advances p q ∨ q.cursor.current.kind = p.cursor.current.kind) := by
  rw [Parser.operations]
  refine .bind (yields_kind (.bind (yields_hasFailed ?_)))
  split
  · rename_i hgo
    simp only [Bool.and_eq_true, Bool.not_eq_true'] at hgo
    obtain ⟨⟨hf, -⟩, hc⟩ := hgo
    have h := h.resolve_left fun h => by simp [hf] at h
    have hl : p.cursor.current.kind.isLast = false := by
      revert hc
      cases p.cursor.current.kind <;> simp [continues, Token.Kind.isLast, Token.Kind.isError,
        Token.Kind.isEndOfInput]
    have hop := ih.operation (h.pass (.refl p) (by omega)) hl left
    refine .bind ((yields_ending hop).mono fun left q hq => ?_)
    have hq' : 0 < fuel ∧ q.failed = true ∨ Fuelled 1 fuel q := by
      rcases hq.moved with hf | hs
      · have := h.pos
        exact .inl ⟨by omega, hf⟩
      · exact .inr (h.take ⟨hq.toPasses, hs⟩ (by omega))
    refine (ih.operations hq' power left).mono fun _ r hr => ?_
    exact ⟨hq.toPasses.trans hr.1, .inl (hq.trans hr.1)⟩
  · exact yields_pure ⟨.refl p, .inr rfl⟩

theorem operand_succ (h : Fuelled 2 (fuel + 1) p) (hl : p.cursor.current.kind.isLast = false)
    (power : Nat) :
    (Parser.operand (fuel + 1) power).Settles p (Reaches p) fun _ => Reaches p := by
  rw [Parser.operand]
  refine .bind (settles_lift (yields_here fun place => .bind (settles_get ?_)))
  dsimp only
  -- Every way to begin that does not fail at once passes the first token.
  have leaf : ∀ build : Tag → Node, Attempt.Settles (do forward; Reading.node place build) p
      (Reaches p) fun _ => Reaches p := fun build =>
    .bind (settles_lift (takes_next h.proper hl fun q hq => settles_lift (passes_node.mono
      fun _ r hr => (hq.trans hr).advances.reaches)))
  have adjusted : ∀ change : Adjustment, Attempt.Settles (do
      forward
      let n ← valid (← Parser.expression fuel unaryPower)
      if n.isAssignable then
        Reading.node (← spanFrom place) (.adjust · change n)
      else fail (errorAt n.place notAdjustable)) p (Reaches p) fun _ => Reaches p := by
    intro change
    refine .bind (settles_lift (takes_next h.proper hl fun q hq => ?_))
    refine ih.valid_expression (h.take hq (by omega)) (fun r hr => (hq.trans hr).advances.reaches)
      fun n r hr => ?_
    have hpr := hq.trans hr
    split
    · exact settles_spanned fun _ r' hr' => (hpr.trans hr').advances.reaches
    · exact settles_error fun r' hr' => (hpr.trans hr'.toPasses).advances.reaches
  split
  · exact leaf _
  · exact leaf _
  · exact settles_error fun q hq => hq.reaches
  · exact adjusted _
  · exact adjusted _
  · exact (ih.named (h.pass (.refl p) (by omega)) hl place _).mono (fun _ hq => hq.reaches)
      fun _ _ hq => hq.reaches
  · refine .bind (settles_lift (takes_next h.proper hl fun q hq => ?_))
    refine ih.valid_expression (h.take hq (by omega)) (fun r hr => (hq.trans hr).advances.reaches)
      fun n r hr => ?_
    have hpr := hq.trans hr
    refine .bind (settles_expect (hpr.proper h.proper) rfl
      (fun r' hr' => (hpr.trans hr'.toPasses).advances.reaches) fun r' hr' => ?_)
    exact settles_pure (hpr.trans hr'.toPasses).advances.reaches
  · refine .bind (settles_lift (takes_next h.proper hl fun q hq => ?_))
    exact settles_lift ((ih.block (h.take hq (by omega)) place).mono fun _ r hr =>
      (hq.trans hr).advances.reaches)
  · split
    · refine .bind (settles_lift (takes_next h.proper hl fun q hq => ?_))
      refine .bind (settles_lift ((ih.expression (h.take hq (by omega)) _).mono fun n r hr => ?_))
      have hpr := hq.trans hr.toPasses
      exact settles_spanned fun _ r' hr' => (hpr.trans hr').advances.reaches
    · split
      · rename_i hs
        simp only [Bool.and_eq_true, decide_eq_true_eq] at hs
        exact settles_lift (yields_node fun _ => ⟨⟨List.suffix_rfl, id⟩, .inr hs.1⟩)
      · exact settles_unexpected fun q hq => hq.reaches

theorem operation_succ (h : Fuelled 0 (fuel + 1) p) (hl : p.cursor.current.kind.isLast = false)
    (left : Node) :
    (Parser.operation (fuel + 1) left).Settles p (Advances p) fun _ => Advances p := by
  rw [Parser.operation]
  refine .bind (settles_lift (yields_kind ?_))
  have adjusted : ∀ change : Adjustment, Attempt.Settles (do
      if left.isAssignable then
        forward
        Reading.node (← spanFrom left.place) (.adjust · change left)
      else fail (errorAt left.place notAdjustable)) p (Advances p) fun _ => Advances p := by
    intro change
    split
    · refine .bind (settles_lift (takes_next h.proper hl fun q hq => ?_))
      exact settles_spanned fun _ r hr => (hq.trans hr).advances
    · exact settles_error fun q hq => hq
  split
  · refine .bind (settles_lift (takes_next h.proper hl fun q hq => ?_))
    refine .bind (settles_lift ((ih.expression (h.take hq (by omega)) _).mono fun n r hr => ?_))
    exact settles_lift (passes_node.mono fun _ r' hr' =>
      ((hq.trans hr.toPasses).trans hr').advances)
  · refine .bind (settles_lift (takes_next h.proper hl fun q hq => ?_))
    refine .bind (settles_takeNameOr (hq.proper h.proper)
      (fun r hr => (hq.trans hr.toPasses).advances) fun s r hr => ?_)
    exact settles_spanned fun _ r' hr' => ((hq.trans hr.toPasses).trans hr').advances
  · refine .bind (settles_lift (takes_next h.proper hl fun q hq => ?_))
    refine ih.valid_expression (h.take hq (by omega)) (fun r hr => (hq.trans hr).advances)
      fun n r hr => ?_
    have hpr := hq.trans hr
    refine .bind (settles_expect (hpr.proper h.proper) rfl
      (fun r' hr' => (hpr.trans hr'.toPasses).advances) fun r' hr' => ?_)
    exact settles_spanned fun _ s hs => ((hpr.trans hr'.toPasses).trans hs).advances
  · refine .bind (settles_lift (takes_next h.proper hl fun q hq => ?_))
    refine .bind ((ih.arguments (h.take hq (by omega))).mono (fun r hr => (hq.trans hr).advances)
      fun as r hr => ?_)
    exact settles_spanned fun _ r' hr' => ((hq.trans hr).trans hr').advances
  · refine .bind (settles_lift (takes_next h.proper hl fun q hq => ?_))
    refine ih.valid_expression (h.take hq (by omega)) (fun r hr => (hq.trans hr).advances)
      fun n r hr => ?_
    have hpr := hq.trans hr
    refine .bind (settles_expect (hpr.proper h.proper) rfl
      (fun r' hr' => (hpr.trans hr'.toPasses).advances) fun r' hr' => ?_)
    have hpr' := hpr.trans hr'.toPasses
    refine .bind (settles_lift ((ih.expression (h.take hpr' (by omega)) _).mono fun b s hs => ?_))
    exact settles_lift (passes_node.mono fun _ s' hs' =>
      ((hpr'.trans hs.toPasses).trans hs').advances)
  · split
    · refine .bind (settles_lift (takes_next h.proper hl fun q hq => ?_))
      refine .bind (settles_lift ((ih.expression (h.take hq (by omega)) _).mono fun n r hr => ?_))
      exact settles_lift (passes_node.mono fun _ r' hr' =>
        ((hq.trans hr.toPasses).trans hr').advances)
    · exact settles_error fun q hq => hq
  · split
    · refine .bind (settles_lift (takes_next h.proper hl fun q hq => ?_))
      refine .bind (settles_lift ((ih.expression (h.take hq (by omega)) _).mono fun n r hr => ?_))
      refine .bind (settles_lift (passes_node.mono fun _ r' hr' => ?_))
      exact settles_lift (passes_node.mono fun _ s hs =>
        (((hq.trans hr.toPasses).trans hr').trans hs).advances)
    · exact settles_error fun q hq => hq
  · exact adjusted _
  · exact adjusted _
  · exact settles_unexpected fun q hq => hq

theorem arguments_succ (h : Fuelled 5 (fuel + 1) p) :
    (Parser.arguments (fuel + 1)).Settles p (Passes p) fun _ => Passes p := by
  rw [Parser.arguments]
  refine .bind (settles_lift (takes_accept h.proper rfl (fun q hq => ?_) fun _ => ?_))
  · exact settles_pure hq.toPasses
  · refine .bind ((ih.argumentList (h.pass (.refl p) (by omega))).mono (fun _ hq => hq)
      fun as q hq => ?_)
    refine .bind (settles_expect (hq.proper h.proper) rfl (fun r hr => hq.trans hr.toPasses)
      fun r hr => ?_)
    exact settles_pure (hq.trans hr.toPasses)

theorem argumentList_succ (h : Fuelled 4 (fuel + 1) p) :
    (Parser.argumentList (fuel + 1)).Settles p (Passes p) fun _ => Passes p := by
  rw [Parser.argumentList]
  refine ih.valid_expression (h.pass (.refl p) (by omega)) (fun _ hq => hq) fun a q hq => ?_
  refine .bind (settles_lift (takes_accept (hq.proper h.proper) rfl (fun r hr => ?_) fun _ => ?_))
  · have hpr := hq.takes hr
    refine .bind ((ih.argumentList (h.take hpr (by omega))).mono (fun _ hs => hpr.toPasses.trans hs)
      fun as s hs => ?_)
    exact settles_pure (hpr.toPasses.trans hs)
  · exact settles_pure hq

/-! ### Statements -/

theorem condition_succ (h : Fuelled 4 (fuel + 1) p) :
    (Parser.condition (fuel + 1)).Settles p (Passes p) fun _ => Passes p := by
  rw [Parser.condition]
  refine .bind (settles_expect h.proper rfl (fun _ hq => hq.toPasses) fun q hq => ?_)
  refine ih.valid_expression (h.take hq (by omega)) (fun r hr => hq.toPasses.trans hr)
    fun n r hr => ?_
  have hpr := hq.toPasses.trans hr
  refine .bind (settles_expect (hpr.proper h.proper) rfl (fun s hs => hpr.trans hs.toPasses)
    fun s hs => ?_)
  exact settles_pure (hpr.trans hs.toPasses)

theorem ifStatement_succ (h : Fuelled 0 (fuel + 1) p) (hl : p.cursor.current.kind.isLast = false) :
    (Parser.ifStatement (fuel + 1) place).Settles p (Advances p) fun _ => Advances p := by
  rw [Parser.ifStatement]
  refine .bind (settles_lift (takes_next h.proper hl fun q hq => ?_))
  refine .bind ((ih.condition (h.take hq (by omega))).mono (fun r hr => (hq.trans hr).advances)
    fun c r hr => ?_)
  have hpr := hq.trans hr
  refine .bind (settles_lift ((ih.statement (h.take hpr (by omega))).mono fun a s hs => ?_))
  have hps := hpr.trans hs.toPasses
  have otherwise : Reading.Yields (do
      if ← hasFailed then return false else acceptName "else" : Reading Bool) s fun _ => Passes s := by
    refine .bind (yields_hasFailed ?_)
    split
    · exact yields_pure (.refl s)
    · exact takes_acceptName (hps.proper h.proper) fun _ _ hr => hr
  refine .bind (settles_lift (otherwise.mono fun b s' hs' => ?_))
  have hps' := hps.trans hs'
  split
  · refine .bind (settles_lift ((ih.statement (h.take hps' (by omega))).mono fun b u hu => ?_))
    exact settles_spanned fun _ v hv => ((hps'.trans hu.toPasses).trans hv).advances
  · exact settles_spanned fun _ v hv => (hps'.trans hv).advances

theorem whileStatement_succ (h : Fuelled 0 (fuel + 1) p)
    (hl : p.cursor.current.kind.isLast = false) :
    (Parser.whileStatement (fuel + 1) place).Settles p (Advances p) fun _ => Advances p := by
  rw [Parser.whileStatement]
  refine .bind (settles_lift (takes_next h.proper hl fun q hq => ?_))
  refine .bind ((ih.condition (h.take hq (by omega))).mono (fun r hr => (hq.trans hr).advances)
    fun c r hr => ?_)
  have hpr := hq.trans hr
  refine .bind (settles_lift ((ih.statement (h.take hpr (by omega))).mono fun b s hs => ?_))
  exact settles_spanned fun _ u hu => ((hpr.trans hs.toPasses).trans hu).advances

theorem doStatement_succ (h : Fuelled 0 (fuel + 1) p) (hl : p.cursor.current.kind.isLast = false) :
    (Parser.doStatement (fuel + 1) place).Settles p (Advances p) fun _ => Advances p := by
  rw [Parser.doStatement]
  refine .bind (settles_lift (takes_next h.proper hl fun q hq => ?_))
  refine .bind (settles_lift ((ih.statement (h.take hq (by omega))).mono fun b r hr => ?_))
  have hpr := hq.trans hr.toPasses
  refine .bind (settles_valid hpr.advances ?_)
  refine .bind (settles_lift (takes_acceptName (hpr.proper h.proper) fun found s hs => ?_))
  have hps := hpr.trans hs
  split
  · refine .bind ((ih.condition (h.take hps (by omega))).mono (fun u hu => (hps.trans hu).advances)
      fun c u hu => ?_)
    exact settles_spanned fun _ v hv => ((hps.trans hu).trans hv).advances
  · exact settles_unexpected fun u hu => (hps.trans hu.toPasses).advances

theorem returnStatement_succ (h : Fuelled 0 (fuel + 1) p)
    (hl : p.cursor.current.kind.isLast = false) :
    (Parser.returnStatement (fuel + 1) place).Settles p (Advances p) fun _ => Advances p := by
  rw [Parser.returnStatement]
  refine .bind (settles_lift (takes_next h.proper hl fun q hq => .bind (settles_lift (yields_kind ?_))))
  have bare : Attempt.Settles (do Reading.node (← spanFrom place) (.jump · .return)) q
      (Advances p) fun _ => Advances p :=
    settles_spanned fun _ r hr => (hq.trans hr).advances
  split
  · exact bare
  · exact bare
  · exact bare
  · refine ih.valid_expression (h.take hq (by omega)) (fun r hr => (hq.trans hr).advances)
      fun v r hr => ?_
    exact settles_spanned fun _ s hs => ((hq.trans hr).trans hs).advances

/-- The semicolon that an empty statement leaves is passed here. -/
theorem statement_succ (h : Fuelled 4 (fuel + 1) p) :
    (Parser.statement (fuel + 1)).Yields p fun _ => Advances p := by
  rw [Parser.statement]
  refine .bind ((ih.expression (h.pass (.refl p) (by omega)) 0).mono fun n q hq => ?_)
  refine .bind (takes_accept (hq.proper h.proper) rfl (fun r hr => ?_) fun hs => ?_)
  · exact yields_pure (hq.toPasses.takes hr).advances
  · exact yields_pure (hq.moved.resolve_right hs)

theorem statements_succ (h : 0 < fuel + 1 ∧ p.failed = true ∨ Fuelled 5 (fuel + 1) p)
    (closing : Option Token.Kind) (hc : ∀ k ∈ closing, k.isLast = false) :
    (Parser.statements (fuel + 1) closing).Yields p fun _ => Passes p := by
  unfold Parser.statements
  refine .bind (yields_hasFailed ?_)
  split
  · exact yields_pure (.refl p)
  · rename_i hf
    have h := h.resolve_left fun h => hf h.2
    refine .bind (Reading.Yields.mono (Q := fun _ => Passes p) ?_ fun closed q hq => ?_)
    · cases closing with
      | some k =>
        exact takes_accept h.proper (hc k rfl) (fun q hq => hq.toPasses) fun _ => .refl p
      | none => exact .bind (yields_kind (yields_pure (.refl p)))
    · split
      · exact yields_pure hq
      · refine .bind ((ih.statement (h.pass hq (by omega))).mono fun n r hr => ?_)
        have hpr := hq.advances hr
        have hr' : 0 < fuel ∧ r.failed = true ∨ Fuelled 5 fuel r := by
          rcases hpr.moved with hf | hs
          · have := h.pos
            exact .inl ⟨by omega, hf⟩
          · exact .inr (h.take ⟨hpr.toPasses, hs⟩ (by omega))
        refine .bind ((ih.statements hr' closing hc).mono fun ns s hs => ?_)
        exact yields_pure (hpr.toPasses.trans hs)

/-! ### Declarations, functions and blocks -/

theorem declarators_succ (h : Fuelled 0 (fuel + 1) p) :
    (Parser.declarators (fuel + 1)).Settles p (Passes p) fun _ => Passes p := by
  rw [Parser.declarators]
  refine .bind (settles_lift (yields_here fun place => ?_))
  refine .bind (settles_takeNameOr h.proper (fun _ hq => hq.toPasses) fun s q hq => ?_)
  refine .bind (settles_declare (fun r hr => hq.toPasses.trans hr.toPasses) fun d r hr => ?_)
  refine .bind (settles_lift (passes_node.mono fun target s hs => ?_))
  have hps := (hq.trans hr).trans hs
  have value : Reading.Yields (do
      if ← accept .assign then
        let v ← Parser.expression fuel argumentPower
        Reading.node (place.extend v.place) (.assign · target v)
      else return target : Reading Node) s fun _ => Passes s := by
    refine .bind (takes_accept (hps.proper h.proper) rfl (fun u hu => ?_) fun _ => ?_)
    · have hpu := hps.trans hu.toPasses
      refine .bind ((ih.expression (h.take hpu (by omega)) _).mono fun v w hw => ?_)
      exact passes_node.mono fun _ w' hw' => (hu.toPasses.trans hw.toPasses).trans hw'
    · exact yields_pure (.refl s)
  refine .bind (settles_lift (value.mono fun n u hu => ?_))
  have hpu := hps.trans hu
  have comma : Reading.Yields (do
      if ← hasFailed then return false else accept .comma : Reading Bool) u fun _ => Passes u := by
    refine .bind (yields_hasFailed ?_)
    split
    · exact yields_pure (.refl u)
    · exact takes_accept (hpu.proper h.proper) rfl (fun v hv => hv.toPasses) fun _ => .refl u
  refine .bind (settles_lift (comma.mono fun more v hv => ?_))
  have hpv := hpu.trans hv
  split
  · refine .bind ((ih.declarators (h.take hpv (by omega))).mono (fun w hw => hpv.toPasses.trans hw)
      fun ns w hw => ?_)
    exact settles_pure (hpv.toPasses.trans hw)
  · exact settles_pure hpv.toPasses

theorem parameters_succ (h : Fuelled 0 (fuel + 1) p) :
    (Parser.parameters (fuel + 1)).Settles p (Passes p) fun _ => Passes p := by
  rw [Parser.parameters]
  refine .bind (settles_lift (yields_here fun place => ?_))
  refine .bind (settles_takeNameOr h.proper (fun _ hq => hq.toPasses) fun s q hq => ?_)
  refine .bind (settles_declare (fun r hr => hq.toPasses.trans hr.toPasses) fun d r hr => ?_)
  have hpr := hq.trans hr
  refine .bind (settles_lift (takes_accept (hpr.proper h.proper) rfl (fun s hs => ?_) fun _ => ?_))
  · have hps := hpr.trans hs.toPasses
    refine .bind ((ih.parameters (h.take hps (by omega))).mono (fun u hu => hps.toPasses.trans hu)
      fun ds u hu => ?_)
    exact settles_pure (hps.toPasses.trans hu)
  · exact settles_pure hpr.toPasses

theorem block_succ (h : Fuelled 6 (fuel + 1) p) :
    (Parser.block (fuel + 1) place).Yields p fun _ => Passes p := by
  rw [Parser.block]
  refine .bind (yields_modifyGet ?_)
  have hq : Passes p { p with scope := p.scope.opened } := ⟨List.suffix_rfl, id⟩
  refine .bind ((ih.statements (.inr (h.pass hq (by omega))) _ (by simp [Token.Kind.isLast,
    Token.Kind.isError, Token.Kind.isEndOfInput])).mono fun ss r hr => ?_)
  refine .bind (passes_closeScope.mono fun locals s hs => .bind (yields_spanFrom fun _ => ?_))
  exact passes_blockOf.mono fun _ u hu => ((hq.trans hr).trans hs).trans hu

theorem functionParts_succ (h : Fuelled 7 (fuel + 1) p) :
    (Parser.functionParts (fuel + 1)).Settles p (Passes p) fun _ => Passes p := by
  rw [Parser.functionParts]
  refine .bind (settles_expect h.proper rfl (fun _ hq => hq.toPasses) fun q hq => ?_)
  have inside : Attempt.Settles (do
      if ← accept .closePar then return []
      else
        let ps ← Parser.parameters fuel
        expect .closePar
        return ps : Attempt (List Declaration)) q (Passes p) fun _ => Takes p := by
    refine .bind (settles_lift (takes_accept (hq.proper h.proper) rfl (fun r hr => ?_) fun _ => ?_))
    · exact settles_pure (hq.trans hr.toPasses)
    · refine .bind ((ih.parameters (h.take hq (by omega))).mono (fun r hr => hq.toPasses.trans hr)
        fun ps r hr => ?_)
      have hpr := hq.trans hr
      refine .bind (settles_expect (hpr.proper h.proper) rfl
        (fun s hs => hpr.toPasses.trans hs.toPasses) fun s hs => ?_)
      exact settles_pure (hpr.trans hs.toPasses)
  refine .bind (inside.mono (fun _ hr => hr) fun params r hr => ?_)
  refine .bind (settles_lift (yields_here fun place => ?_))
  refine .bind (settles_expect (hr.proper h.proper) rfl
    (fun s hs => hr.toPasses.trans hs.toPasses) fun s hs => ?_)
  have hps := hr.trans hs.toPasses
  refine .bind (settles_lift ((ih.block (h.take hps (by omega)) place).mono fun body u hu => ?_))
  refine .bind (settles_lift (yields_hasFailed ?_))
  split
  · exact settles_throw (hps.toPasses.trans hu)
  · exact settles_pure (hps.toPasses.trans hu)

theorem function_succ (h : Fuelled 0 (fuel + 1) p) (hl : p.cursor.current.kind.isLast = false) :
    (Parser.function (fuel + 1) place).Settles p (Advances p) fun _ => Advances p := by
  rw [Parser.function]
  refine .bind (settles_lift (takes_next h.proper hl fun q hq => ?_))
  refine .bind (Attempt.Settles.mono (E := Advances p) (Q := fun _ => Takes p) ?_ (fun _ hr => hr)
    fun own r hr => ?_)
  · refine .bind (settles_lift (takes_takeName (hq.proper h.proper) (fun s r hr => ?_) ?_))
    · have hpr := hq.trans hr.toPasses
      refine .bind (settles_get (.bind (settles_declare (fun s hs => ?_) fun d s hs => ?_)))
      · exact (hpr.trans hs.toPasses).advances
      · exact settles_pure (hpr.trans hs)
    · exact settles_pure hq
  refine .bind (settles_lift (yields_modifyGet (.bind (settles_lift (yields_modifyGet ?_)))))
  have hr' : Takes p { r with scope := r.scope.opened, functions := r.functions ++ [[]] } :=
    hr.trans ⟨List.suffix_rfl, id⟩
  -- However the parts end, the function and its scope are closed again.
  refine .bind (settles_outcome ((ih.functionParts (h.take hr' (by omega))).mono (fun s hs n => ?_)
    fun parts s hs => ?_))
  · refine .bind (settles_lift (yields_modifyGet (.bind (settles_lift (passes_closeScope.mono
      fun _ u hu => ?_)))))
    exact settles_throw ((hr'.trans hs).trans ⟨hu.outlook, hu.failed⟩).advances
  · refine .bind (settles_lift (yields_modifyGet (.bind (settles_lift (passes_closeScope.mono
      fun _ u hu => ?_)))))
    have hpu := (hr'.trans hs).trans ⟨hu.outlook, hu.failed⟩
    exact settles_spanned fun _ v hv => (hpu.trans hv).advances

theorem named_succ (h : Fuelled 1 (fuel + 1) p) (hl : p.cursor.current.kind.isLast = false)
    (s : String) : (Parser.named (fuel + 1) place s).Settles p (Advances p) fun _ => Advances p := by
  unfold Parser.named
  have leaf : ∀ build : Tag → Node, Attempt.Settles (do forward; Reading.node place build) p
      (Advances p) fun _ => Advances p := fun build =>
    .bind (settles_lift (takes_next h.proper hl fun q hq => settles_lift (passes_node.mono
      fun _ r hr => (hq.trans hr).advances)))
  split
  · exact leaf _
  · have same := h.pass (c := 0) (.refl p) (by omega)
    split
    · exact ih.ifStatement same hl place
    · exact ih.whileStatement same hl place
    · exact ih.doStatement same hl place
    · refine .bind (settles_lift (takes_next h.proper hl fun q hq => ?_))
      refine .bind ((ih.declarators (h.take hq (by omega))).mono
        (fun r hr => (hq.trans hr).advances) fun ds r hr => ?_)
      exact .bind (settles_lift (yields_spanFrom fun _ => settles_lift (passes_blockOf.mono
        fun _ s hs => ((hq.trans hr).trans hs).advances)))
    · exact ih.function same hl place
    · exact leaf _
    · exact leaf _
    · exact ih.returnStatement same hl place
    · exact settles_error fun q hq => hq
    · refine .bind (settles_lift (takes_next h.proper hl fun q hq => ?_))
      exact settles_lift (passes_nameNode.mono fun _ r hr => (hq.trans hr).advances)

theorem succ : Halting (fuel + 1) where
  expression h power := ih.expression_succ h power
  operations h power left := ih.operations_succ h power left
  operand h hl power := ih.operand_succ h hl power
  operation h hl left := ih.operation_succ h hl left
  arguments h := ih.arguments_succ h
  argumentList h := ih.argumentList_succ h
  named h hl _ s := ih.named_succ h hl s
  condition h := ih.condition_succ h
  ifStatement h hl _ := ih.ifStatement_succ h hl
  whileStatement h hl _ := ih.whileStatement_succ h hl
  doStatement h hl _ := ih.doStatement_succ h hl
  declarators h := ih.declarators_succ h
  function h hl _ := ih.function_succ h hl
  functionParts h := ih.functionParts_succ h
  parameters h := ih.parameters_succ h
  returnStatement h hl _ := ih.returnStatement_succ h hl
  block h _ := ih.block_succ h
  statement h := ih.statement_succ h
  statements h closing hc := ih.statements_succ h closing hc

end Halting

/-- **With enough fuel every reader of the grammar ends.** -/
theorem halting (fuel : Nat) : Halting fuel := by
  induction fuel with
  | zero => exact halting_zero
  | succ fuel ih => exact ih.succ

end Parser

end Steppable
