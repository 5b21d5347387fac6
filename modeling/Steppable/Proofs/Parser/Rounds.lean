import Steppable.Proofs.Parser.Diagnosis
import Steppable.Proofs.Parser.Mirroring

/-!
# Every round of reading gets on

That reading ends (`halting`) has a reason that can be seen at each step of it: a round of a loop, or
a reader that is called by another one, passes a token or notes an error. Only an empty statement is
read without either of them, and then what follows it does one of them: the statement passes the
semicolon, and brackets around it make it an error.

**Theorem (`reading_ends`).** Every source is read to an end. The tree is the same for all amounts of
fuel from some number on, and all readers get on in this way wherever in the source they begin.
-/

namespace Steppable

open Reading Attempt

variable {α : Type} {p q q' : Parser} {n : Node}

/-- What a reader satisfies with much fuel, it satisfies with any if it comes to an end. -/
theorem Reading.Mirrors.ensures {x y : Reading α} {f : α → α} {Q : α → Parser → Prop}
    (h : Mirrors 0 f x y) (hf : ∀ a, f a = a) (hy : y.Yields p Q)
    (hQ : ∀ a q q', q'.cursor = q.cursor → q'.failed = q.failed → Q a q' → Q a q) :
    x.Ensures p Q := by
  intro a q hx
  obtain ⟨q', hy', hq⟩ := h p p (.refl p) a q hx
  obtain ⟨b, r, hr, hb⟩ := hy
  obtain ⟨rfl, rfl⟩ := Prod.mk.inj (Option.some.inj (hr.symm.trans hy'))
  exact hQ a q _ hq.cursor hq.failed (hf a ▸ hb)

/-- A reader has only one outcome. -/
theorem Reading.Yields.ensures {x : Reading α} {Q : α → Parser → Prop} (h : x.Yields p Q) :
    x.Ensures p Q := by
  intro a q hx
  obtain ⟨b, r, hr, hb⟩ := h
  obtain ⟨rfl, rfl⟩ := Prod.mk.inj (Option.some.inj (hr.symm.trans hx))
  exact hb

namespace Parser

/-! ## Empty statements -/

/-- An empty statement has been read, and nothing has been passed. -/
structure Idles (p : Parser) (n : Node) (q : Parser) : Prop where
  semicolon : p.cursor.current.kind = .semicolon
  node : ∃ t, n = .nop t
  cursor : q.cursor = p.cursor
  failed : q.failed = p.failed

/-- Reading has got on, or an empty statement has been read. -/
def Moves (power : Nat) (p : Parser) (n : Node) (q : Parser) : Prop :=
  Advances p q ∨ power = 0 ∧ Idles p n q

theorem Idles.of_same (h : Idles p n q') (hc : q'.cursor = q.cursor)
    (hf : q'.failed = q.failed) : Idles p n q :=
  ⟨h.semicolon, h.node, hc ▸ h.cursor, hf ▸ h.failed⟩

theorem Passes.of_same (h : Passes p q') (hc : q'.cursor = q.cursor)
    (hf : q'.failed = q.failed) : Passes p q := by
  have ho : q'.outlook = q.outlook := by rw [Parser.outlook, Parser.outlook, hc]
  exact ⟨ho ▸ h.outlook, fun hp => hf ▸ h.failed hp⟩

theorem Advances.of_same (h : Advances p q') (hc : q'.cursor = q.cursor)
    (hf : q'.failed = q.failed) : Advances p q := by
  have ho : q'.outlook = q.outlook := by rw [Parser.outlook, Parser.outlook, hc]
  exact ⟨h.toPasses.of_same hc hf, hf ▸ ho ▸ h.moved⟩

/-- Away from a semicolon there is no empty statement. -/
theorem Reaches.advances (h : Reaches p q) (hs : p.cursor.current.kind ≠ .semicolon) :
    Advances p q := by
  by_cases hlen : q.outlook.length < p.outlook.length
  · exact ⟨h.toPasses, .inr hlen⟩
  · -- Without a token that has been passed the current one is the same as before.
    refine h.moved.resolve_right fun hq => hs ?_
    have ho : q.outlook = p.outlook :=
      h.outlook.eq_of_length (Nat.le_antisymm h.length_le (Nat.le_of_not_lt hlen))
    have hcurrent : q.cursor.current.bare = p.cursor.current.bare := (List.cons.inj ho).1
    exact (congrArg Token.kind hcurrent).symm.trans hq

/-- No operator follows on a semicolon or an error. -/
theorem ensures_operations_idle (fuel power : Nat) (left : Node)
    (h : p.failed = true ∨ p.cursor.current.kind = .semicolon) :
    (operations fuel power left).Ensures p fun n q => n = left ∧ q = p := by
  cases fuel with
  | zero => exact ensures_outOfFuel
  | succ fuel =>
    rw [operations]
    refine .bind (ensures_current (.bind (ensures_hasFailed ?_)))
    split
    · rename_i hgo
      rcases h with hf | hs
      · simp [hf] at hgo
      · simp [hs, continues] at hgo
    · exact ensures_pure ⟨rfl, rfl⟩

/-- Before a semicolon there is an empty statement, or an error where none can stand. -/
theorem ensures_operand_idle (fuel power : Nat) (hs : p.cursor.current.kind = .semicolon) :
    Attempt.Ensures (operand fuel power) p
      (fun _ q => power ≠ 0 ∧ Advances p q ∧ q.failed = true)
      fun n q => power = 0 ∧ Idles p n q := by
  cases fuel with
  | zero => exact ensures_lift ensures_outOfFuel
  | succ fuel =>
    rw [operand]
    refine .bind (ensures_lift (ensures_here fun place => .bind (Attempt.ensures_get ?_)))
    dsimp only
    rw [hs]
    dsimp only [Token.Kind.unary?]
    split
    · rename_i hpower
      exact ensures_lift (ensures_node ⟨by simpa using hpower, hs, ⟨_, rfl⟩, rfl, rfl⟩)
    · rename_i hpower
      refine ensures_fail (ensures_unexpected fun place message => ⟨by simpa using hpower, ?_, rfl⟩)
      exact ⟨⟨List.suffix_rfl, fun _ => rfl⟩, .inl rfl⟩

theorem ensures_expression_idle (fuel power : Nat) (hs : p.cursor.current.kind = .semicolon) :
    (expression fuel power).Ensures p fun n q =>
      power ≠ 0 ∧ Advances p q ∨ power = 0 ∧ Idles p n q := by
  cases fuel with
  | zero => exact ensures_outOfFuel
  | succ fuel =>
    rw [expression]
    refine .bind (ensures_current ?_)
    rw [hs]
    -- No operator follows on a semicolon or an error.
    have hoperand : (orError (operand fuel power)).Ensures p fun n q =>
        (power ≠ 0 ∧ Advances p q ∨ power = 0 ∧ Idles p n q) ∧
          (q.failed = true ∨ q.cursor.current.kind = .semicolon) :=
      ensures_orError ((ensures_operand_idle fuel power hs).mono
        (fun _ _ hq => ⟨.inl ⟨hq.1, hq.2.1⟩, .inl hq.2.2⟩)
        fun _ _ hq => ⟨.inr hq, .inr (hq.2.cursor ▸ hs)⟩)
    refine .bind (hoperand.mono fun n q hq => ?_)
    refine (ensures_operations_idle fuel power n hq.2).mono ?_
    rintro n' q' ⟨rfl, rfl⟩
    exact hq.1

/-! ## Nested readers -/

theorem ensures_expression (hp : Token.Proper p.outlook) (fuel power : Nat) :
    (expression fuel power).Ensures p (Moves power p) := by
  by_cases hs : p.cursor.current.kind = .semicolon
  · exact (ensures_expression_idle fuel power hs).mono fun _ _ => .imp And.right id
  · have hy := (halting (fuel + (8 * p.outlook.length + 3))).expression
      ⟨hp, Nat.le_add_left _ _⟩ power
    have hm := (mirroring 0 (Nat.le_add_right fuel (8 * p.outlook.length + 3))).expression power
    exact hm.ensures Node.raised_zero (hy.mono fun _ q hq => Or.inl (hq.advances hs))
      fun _ q q' hc hf => Or.imp (·.of_same hc hf) (And.imp_right (·.of_same hc hf))

/-- An attempt that gets on with much fuel gets on with any if it comes to an end. -/
theorem ensures_advances {x y : Attempt α} {f : α → α} (h : Attempt.Mirrors 0 f x y)
    (hf : ∀ a, f a = a) (hy : y.Settles p (Advances p) fun _ => Advances p) :
    x.Ensures p (fun _ => Advances p) fun _ => Advances p := by
  have hending : ∀ r, ending 0 f r = r := by
    rintro (n | a)
    · exact congrArg Except.error n.raised_zero
    · exact congrArg Except.ok (hf a)
  have hr := Reading.Mirrors.ensures (Q := fun _ => Advances p) h hending
    (Reading.Yields.mono hy fun r q hr => by cases r <;> exact hr)
    fun _ _ _ hc hf hq => hq.of_same hc hf
  exact Reading.Ensures.mono hr fun r q hq => by cases r <;> exact hq

/-- Nothing is passed at the last token, but an error is noted. -/
theorem ensures_last {expected : String} {Q : α → Parser → Prop} :
    Attempt.Ensures (fail (unexpected expected) : Attempt α) p (fun _ => Advances p) Q :=
  ensures_fail (ensures_unexpected fun _ _ => ⟨⟨List.suffix_rfl, fun _ => rfl⟩, .inl rfl⟩)

theorem kind_of_isLast (hl : p.cursor.current.kind.isLast = true) :
    (∃ cause, p.cursor.current.kind = .error cause) ∨ p.cursor.current.kind = .endOfInput := by
  revert hl
  cases p.cursor.current.kind <;>
    simp [Token.Kind.isLast, Token.Kind.isError, Token.Kind.isEndOfInput]

theorem ensures_operand (hp : Token.Proper p.outlook) (fuel power : Nat) :
    Attempt.Ensures (operand fuel power) p (Moves power p) (Moves power p) := by
  by_cases hs : p.cursor.current.kind = .semicolon
  · exact (ensures_operand_idle fuel power hs).mono (fun _ _ hq => .inl hq.2.1) fun _ _ => .inr
  refine Attempt.Ensures.mono (E := fun _ => Advances p) (Q := fun _ => Advances p) ?_
    (fun _ _ => .inl) fun _ _ => .inl
  cases hl : p.cursor.current.kind.isLast with
  | true =>
    cases fuel with
    | zero => exact ensures_lift ensures_outOfFuel
    | succ fuel =>
      rw [operand]
      refine .bind (ensures_lift (ensures_here fun place => .bind (Attempt.ensures_get ?_)))
      dsimp only
      rcases kind_of_isLast hl with ⟨cause, hk⟩ | hk <;> rw [hk] <;> exact ensures_last
  | false =>
    have hy := (halting (fuel + (8 * p.outlook.length + 2))).operand
      ⟨hp, Nat.le_add_left _ _⟩ hl power
    exact ensures_advances ((mirroring 0 (Nat.le_add_right fuel _)).operand power) Node.raised_zero
      (hy.mono (fun _ hq => hq.advances hs) fun _ _ hq => hq.advances hs)

theorem ensures_operation (hp : Token.Proper p.outlook) (fuel : Nat) (left : Node) :
    Attempt.Ensures (operation fuel left) p (fun _ => Advances p) fun _ => Advances p := by
  cases hl : p.cursor.current.kind.isLast with
  | true =>
    cases fuel with
    | zero => exact ensures_lift ensures_outOfFuel
    | succ fuel =>
      rw [operation]
      refine .bind (ensures_lift (ensures_current ?_))
      rcases kind_of_isLast hl with ⟨cause, hk⟩ | hk <;> rw [hk] <;> exact ensures_last
  | false =>
    have hy := (halting (fuel + 8 * p.outlook.length)).operation
      ⟨hp, Nat.le_add_left _ _⟩ hl left
    have hm := (mirroring 0 (Nat.le_add_right fuel (8 * p.outlook.length))).operation left
    rw [Node.raised_zero] at hm
    exact ensures_advances hm Node.raised_zero hy

theorem ensures_statement (hp : Token.Proper p.outlook) (fuel : Nat) :
    (statement fuel).Ensures p fun _ => Advances p := by
  have hy := (halting (fuel + (8 * p.outlook.length + 4))).statement ⟨hp, Nat.le_add_left _ _⟩
  exact (mirroring 0 (Nat.le_add_right fuel _)).statement.ensures Node.raised_zero hy
    fun _ _ _ hc hf hq => hq.of_same hc hf

theorem ensures_statements (hp : Token.Proper p.outlook) (fuel : Nat) (closing : Option Token.Kind)
    (hc : ∀ k ∈ closing, k.isLast = false) :
    (statements fuel closing).Ensures p fun _ => Passes p := by
  have hy := (halting (fuel + (8 * p.outlook.length + 5))).statements
    (.inr ⟨hp, Nat.le_add_left _ _⟩) closing hc
  refine ((mirroring 0 (Nat.le_add_right fuel _)).statements closing).ensures (fun ns => ?_) hy
    fun _ _ _ hc hf hq => hq.of_same hc hf
  rw [← Node.allRaised_eq_map, Node.allRaised_zero]

/-- The brace at the end of a block is passed, or one of its statements gets on. -/
theorem ensures_block (hp : Token.Proper p.outlook) (fuel : Nat) (place : Location) :
    (block fuel place).Ensures p fun _ => Advances p := by
  have inside (fuel : Nat) (p : Parser) (hp : Token.Proper p.outlook) :
      (statements fuel (some .closeCurly)).Ensures p fun _ => Advances p := by
    cases fuel with
    | zero => exact ensures_outOfFuel
    | succ fuel =>
      unfold statements
      refine .bind (ensures_hasFailed ?_)
      split
      · rename_i hf
        exact ensures_pure ⟨.refl p, .inl hf⟩
      · refine .bind (takes_accept hp rfl (fun q hq => ?_) fun _ => ?_).ensures
        · exact ensures_pure hq.advances
        · refine .bind ((ensures_statement hp fuel).mono fun s q hq => ?_)
          refine .bind ((ensures_statements (hq.proper hp) fuel _ (by simp [Token.Kind.isLast,
            Token.Kind.isError, Token.Kind.isEndOfInput])).mono fun ss r hr => ?_)
          exact ensures_pure (hq.trans hr)
  cases fuel with
  | zero => exact ensures_outOfFuel
  | succ fuel =>
    rw [block]
    refine .bind (ensures_modify (.bind ?_))
    refine (inside fuel { p with scope := p.scope.opened } hp).mono fun ss q hq => ?_
    have hq : Advances p q := ⟨⟨hq.outlook, hq.failed⟩, hq.moved⟩
    refine .bind (passes_closeScope.ensures.mono fun locals r hr => ?_)
    refine .bind (ensures_spanFrom fun _ => ?_)
    exact passes_blockOf.ensures.mono fun _ s hs => (hq.trans hr).trans hs

/-! ## Rounds

The rounds of statements and of operators are readers already. -/

/-- One argument, and whether another one follows. -/
def argumentRound (fuel : Nat) : Attempt (Node × Bool) := do
  let a ← valid (← expression fuel argumentPower)
  let more ← accept .comma
  return (a, more)

/-- One parameter, and whether another one follows. -/
def parameterRound : Attempt (Declaration × Bool) := do
  let place ← here
  let s ← takeNameOr "parameter name"
  let d ← declare s place
  let more ← accept .comma
  return (d, more)

/-- One declaration of a `var` statement, and whether another one follows. -/
def declaratorRound (fuel : Nat) : Attempt (Node × Bool) := do
  let place ← here
  let s ← takeNameOr "variable name"
  let d ← declare s place
  let target ← node place (.declare · d)
  let n ← (do
    if ← accept .assign then
      let v ← expression fuel argumentPower
      node (place.extend v.place) (.assign · target v)
    else return target : Reading Node)
  let more ← (do if ← hasFailed then return false else accept .comma : Reading Bool)
  return (n, more)

/-- What is read in rounds, as long as they ask for another one. -/
def inRounds {β : Type} (round : Attempt (β × Bool)) (rest : Attempt (List β)) :
    Attempt (List β) := do
  let (b, more) ← round
  if more then return b :: (← rest) else return [b]

theorem argumentList_succ (fuel : Nat) :
    argumentList (fuel + 1) = inRounds (argumentRound fuel) (argumentList fuel) := by
  simp only [argumentList, inRounds, argumentRound, bind_assoc, pure_bind]

theorem parameters_succ (fuel : Nat) :
    parameters (fuel + 1) = inRounds parameterRound (parameters fuel) := by
  simp only [parameters, inRounds, parameterRound, bind_assoc, pure_bind]

theorem declarators_succ (fuel : Nat) :
    declarators (fuel + 1) = inRounds (declaratorRound fuel) (declarators fuel) := by
  simp only [declarators, inRounds, declaratorRound, bind_assoc, pure_bind]

/-- A round gets on, and before another round a token has been passed. -/
def GetsOn {β : Type} (round : Attempt (β × Bool)) (p : Parser) : Prop :=
  round.Ensures p (fun _ => Advances p) fun r q => Advances p q ∧ (r.2 = true → Takes p q)

theorem Moves.passes {power : Nat} (h : Moves power p n q) : Passes p q := by
  rcases h with h | h
  · exact h.toPasses
  · exact (Passes.refl p).of_same h.2.cursor.symm h.2.failed.symm

/-- An argument is not empty. -/
theorem Moves.advances (h : Moves argumentPower p n q) : Advances p q :=
  h.resolve_right fun h => absurd h.1 (by decide)

theorem getsOn_argument (hp : Token.Proper p.outlook) (fuel : Nat) :
    GetsOn (argumentRound fuel) p := by
  unfold argumentRound
  refine .bind (ensures_lift ((ensures_expression hp fuel argumentPower).mono fun a q hq => ?_))
  have hq := hq.advances
  refine .bind (ensures_valid (fun _ => ?_) fun _ => hq)
  refine .bind (ensures_lift (takes_accept (hq.proper hp) rfl (fun r hr => ?_) fun _ => ?_).ensures)
  · exact Attempt.ensures_pure ⟨hq.trans hr.toPasses, fun _ => hq.toPasses.takes hr⟩
  · exact Attempt.ensures_pure ⟨hq, fun h => by cases h⟩

/-- An attempt that settles has only one outcome. -/
theorem ensures_of_settles {x : Attempt α} {E : Parser → Prop} {Q : α → Parser → Prop}
    (h : x.Settles p E Q) : x.Ensures p (fun _ => E) Q := by
  refine Reading.Ensures.mono (Reading.Yields.ensures h) fun r q hr => ?_
  cases r <;> exact hr

/-- A parameter or a declaration begins with a name. -/
theorem ensures_declaration {what : String} {place : Location} {Q : Declaration → Parser → Prop}
    (hp : Token.Proper p.outlook) (hQ : ∀ d q, Takes p q → Q d q) :
    Attempt.Ensures (do Attempt.declare (← takeNameOr what) place) p (fun _ => Advances p) Q := by
  refine ensures_of_settles (.bind (settles_takeNameOr hp (fun _ hq => hq) fun s q hq => ?_))
  exact settles_declare (fun r hr => (hq.trans hr.toPasses).advances) fun d r hr =>
    hQ d r (hq.trans hr)

theorem getsOn_parameter (hp : Token.Proper p.outlook) : GetsOn parameterRound p := by
  unfold parameterRound
  refine .bind (ensures_lift (ensures_here fun place => ?_))
  rw [← bind_assoc]
  refine .bind (ensures_declaration hp fun d q hq => ?_)
  refine .bind (ensures_lift (takes_accept (hq.proper hp) rfl (fun r hr => ?_) fun _ => ?_).ensures)
  · exact Attempt.ensures_pure ⟨(hq.trans hr.toPasses).advances, fun _ => hq.trans hr.toPasses⟩
  · exact Attempt.ensures_pure ⟨hq.advances, fun _ => hq⟩

theorem getsOn_declarator (hp : Token.Proper p.outlook) (fuel : Nat) :
    GetsOn (declaratorRound fuel) p := by
  unfold declaratorRound
  refine .bind (ensures_lift (ensures_here fun place => ?_))
  rw [← bind_assoc]
  refine .bind (ensures_declaration hp fun d q hq => ?_)
  refine .bind (ensures_lift (passes_node.ensures.mono fun target r hr => ?_))
  have hr := hq.trans hr
  have value : Reading.Ensures (do
      if ← accept .assign then
        let v ← expression fuel argumentPower
        node (place.extend v.place) (.assign · target v)
      else return target : Reading Node) r fun _ => Passes r := by
    refine .bind (takes_accept (hr.proper hp) rfl (fun s hs => ?_) fun _ => ?_).ensures
    · refine .bind ((ensures_expression (hs.proper (hr.proper hp)) fuel _).mono fun v u hu => ?_)
      exact passes_node.ensures.mono fun _ w hw => (hs.toPasses.trans hu.passes).trans hw
    · exact ensures_pure (.refl r)
  refine .bind (ensures_lift (value.mono fun n s hs => ?_))
  have hs := hr.trans hs
  have comma : Reading.Ensures (do
      if ← hasFailed then return false else accept .comma : Reading Bool) s fun _ => Passes s := by
    refine .bind (ensures_hasFailed ?_)
    split
    · exact ensures_pure (.refl s)
    · exact (takes_accept (hs.proper hp) rfl (fun u hu => hu.toPasses) fun _ => .refl s).ensures
  refine .bind (ensures_lift (comma.mono fun more u hu => ?_))
  exact Attempt.ensures_pure ⟨(hs.trans hu).advances, fun _ => hs.trans hu⟩

/-- **A loop gets on if its rounds do.** -/
theorem ensures_rounds {β : Type} {round : Nat → Attempt (β × Bool)}
    {loop : Nat → Attempt (List β)} (hzero : loop 0 = outOfFuel)
    (hsucc : ∀ fuel, loop (fuel + 1) = inRounds (round fuel) (loop fuel))
    (h : ∀ p, Token.Proper p.outlook → ∀ fuel, GetsOn (round fuel) p)
    (hp : Token.Proper p.outlook) (fuel : Nat) :
    (loop fuel).Ensures p (fun _ => Advances p) fun _ => Advances p := by
  induction fuel generalizing p with
  | zero =>
    rw [hzero]
    exact ensures_lift ensures_outOfFuel
  | succ fuel ih =>
    rw [hsucc, inRounds]
    refine .bind ((h p hp fuel).mono (fun _ _ hq => hq) fun r q hq => ?_)
    dsimp only
    split
    · refine .bind ((ih (hq.1.proper hp)).mono (fun _ _ hr => hq.1.trans hr.toPasses)
        fun bs r hr => ?_)
      exact Attempt.ensures_pure (hq.1.trans hr.toPasses)
    · exact Attempt.ensures_pure hq.1

/-! ## All readers -/

/-- **A statement passes the semicolon of an empty statement.** -/
theorem ensures_passed (hp : Token.Proper p.outlook) (hs : p.cursor.current.kind = .semicolon)
    (fuel : Nat) : (statement fuel).Ensures p fun n q => (∃ t, n = .nop t) ∧ Takes p q := by
  cases fuel with
  | zero => exact ensures_outOfFuel
  | succ fuel =>
    rw [statement]
    refine .bind ((ensures_expression_idle fuel 0 hs).mono fun n q hq => ?_)
    have hq := (hq.resolve_left fun h => h.1 rfl).2
    have hpq : Passes p q := (Passes.refl p).of_same hq.cursor.symm hq.failed.symm
    refine .bind (takes_accept (hpq.proper hp) rfl (fun r hr => ?_) fun hk => ?_).ensures
    · exact ensures_pure ⟨hq.node, hpq.takes hr⟩
    · exact (hk (hq.cursor ▸ hs)).elim

/-- **Brackets around an empty statement are an error.** -/
theorem ensures_enclosed {k : Token.Kind} (hk : k ≠ .semicolon)
    (hs : p.cursor.current.kind = .semicolon) (fuel : Nat) (f : Node → Attempt α) :
    Attempt.Ensures (do
      let n ← valid (← expression fuel 0)
      expect k
      f n) p (fun _ q => q.failed = true) fun _ _ => False := by
  refine .bind (ensures_lift ((ensures_expression_idle fuel 0 hs).mono fun n q hq => ?_))
  have hq := (hq.resolve_left fun h => h.1 rfl).2
  obtain ⟨t, rfl⟩ := hq.node
  refine .bind (ensures_valid (fun _ => ?_) fun h => by cases h)
  have hkind : q.cursor.current.kind ≠ k := by
    rw [hq.cursor, hs]
    exact hk.symm
  refine .bind (.bind (ensures_lift (ensures_modifyGet ?_)))
  rw [Cursor.accept, if_neg hkind]
  exact ensures_fail (ensures_unexpected fun _ _ => rfl)

/-- How the readers and the rounds of the loops get on from `p`, whatever fuel they have. -/
structure Progress (fuel : Nat) (p : Parser) : Prop where
  expression (power : Nat) : (expression fuel power).Ensures p (Moves power p)
  operand (power : Nat) : (operand fuel power).Ensures p (Moves power p) (Moves power p)
  /-- A round of operators. -/
  operation (left : Node) :
    (operation fuel left).Ensures p (fun _ => Advances p) fun _ => Advances p
  /-- A round of statements. -/
  statement : (statement fuel).Ensures p fun _ => Advances p
  block (place : Location) : (block fuel place).Ensures p fun _ => Advances p
  argument : GetsOn (argumentRound fuel) p
  arguments : (argumentList fuel).Ensures p (fun _ => Advances p) fun _ => Advances p
  parameter : GetsOn parameterRound p
  parameters : (parameters fuel).Ensures p (fun _ => Advances p) fun _ => Advances p
  declarator : GetsOn (declaratorRound fuel) p
  declarators : (declarators fuel).Ensures p (fun _ => Advances p) fun _ => Advances p
  /-- Behind an empty statement its semicolon is passed. -/
  passed : p.cursor.current.kind = .semicolon →
    (Parser.statement fuel).Ensures p fun n q => (∃ t, n = .nop t) ∧ Takes p q
  /-- An empty statement cannot stand in brackets. -/
  enclosed : p.cursor.current.kind = .semicolon → ∀ k ≠ Token.Kind.semicolon,
    Attempt.Ensures (do
      let n ← valid (← Parser.expression fuel 0)
      expect k
      return n) p (fun _ q => q.failed = true) fun _ _ => False

theorem progress (hp : Token.Proper p.outlook) (fuel : Nat) : Progress fuel p where
  expression := ensures_expression hp fuel
  operand := ensures_operand hp fuel
  operation := ensures_operation hp fuel
  statement := ensures_statement hp fuel
  block := ensures_block hp fuel
  argument := getsOn_argument hp fuel
  arguments := by
    refine ensures_rounds ?_ argumentList_succ (fun _ hp => getsOn_argument hp) hp fuel
    rw [argumentList]
  parameter := getsOn_parameter hp
  parameters := by
    refine ensures_rounds ?_ parameters_succ (fun _ hp _ => getsOn_parameter hp) hp fuel
    rw [Parser.parameters]
  declarator := getsOn_declarator hp fuel
  declarators := by
    refine ensures_rounds ?_ declarators_succ (fun _ hp => getsOn_declarator hp) hp fuel
    rw [Parser.declarators]
  passed hs := ensures_passed hp hs fuel
  enclosed hs _ hk := ensures_enclosed hk hs fuel _

/-- **Reading ends.** With the fuel for a source, or more, its tree is read, and this is always the
same tree. Wherever in the source a reader or a round of a loop begins, it passes a token or notes an
error; an empty statement is followed by its semicolon or by an error. -/
theorem reading_ends (p : Parser) (source : String) :
    (∀ fuel, fuelFor (Cursor.ofSource source).ahead.length ≤ fuel →
      ∃ q, (analyse fuel).run { p with cursor := .ofSource source } =
        some ((p.parse source).1, q)) ∧
    ∀ q : Parser, q.outlook <:+ (Token.lex source).map Token.bare → ∀ fuel, Progress fuel q := by
  have hfuelled := fuelled_source p source
  refine ⟨fun fuel hfuel => ?_, fun q hq => progress ?_⟩
  · obtain ⟨n, r, hrun, -⟩ := covers_analyse hfuelled
    obtain ⟨q, hq, -⟩ := mirrors_analyse hfuel _ _ (.refl _) n r hrun
    rw [Node.raised_zero] at hq
    exact ⟨q, by rw [parse, hrun, hq]⟩
  · rw [← outlook_ofSource] at hq
    have hpasses : Passes { p with cursor := .ofSource source, failed := false } q :=
      ⟨hq, fun hf => by cases hf⟩
    exact hpasses.proper hfuelled.proper

/-- Brackets that are not closed are read to the end, with an error, for any larger amount of fuel.
-/
theorem reading_ends_unclosed : ∃ q,
    (analyse 100).run { Parser.new {} with cursor := .ofSource "(;" } =
      some (((Parser.new {}).parse "(;").1, q) :=
  (reading_ends (Parser.new {}) "(;").1 100 (by decide +kernel)

end Parser

end Steppable
