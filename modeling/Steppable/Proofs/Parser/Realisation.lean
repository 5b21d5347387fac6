import Steppable.Proofs.Parser.Recognition

/-!
# What can be derived is read

The readers of the grammar find what the grammar derives (`realises`): they end, note no error, give
nodes of the shapes derived and stop where the derivation stops. Eight units of fuel for each token
that is passed are enough, and a few more depending on what is asked for.
-/

namespace Steppable

variable {α β : Type} {p : Parser}

/-! ## Readers that give a result -/

/-- What `x` reads from `p` on satisfies `Q`, and it does read something. -/
def Reading.Yields (x : Reading α) (p : Parser) (Q : α → Parser → Prop) : Prop :=
  ∃ a q, x.run p = some (a, q) ∧ Q a q

/-- The attempt does not end early, and what it reads satisfies `Q`. -/
def Attempt.Yields (x : Attempt α) (p : Parser) (Q : α → Parser → Prop) : Prop :=
  ∃ a q, x.run.run p = some (.ok a, q) ∧ Q a q

namespace Reading

variable {x : Reading α} {f : α → Reading β} {Q Q' : α → Parser → Prop} {R : β → Parser → Prop}

theorem Yields.mono (h : x.Yields p Q) (hQ : ∀ a q, Q a q → Q' a q) : x.Yields p Q' := by
  obtain ⟨a, q, hx, ha⟩ := h
  exact ⟨a, q, hx, hQ a q ha⟩

theorem Yields.bind (h : x.Yields p fun a q => (f a).Yields q R) : (x >>= f).Yields p R := by
  obtain ⟨a, q, hx, b, r, hf, hR⟩ := h
  refine ⟨b, r, ?_, hR⟩
  rw [StateT.run_bind, hx]
  exact hf

theorem yields_pure {a : α} (h : Q a p) : (pure a : Reading α).Yields p Q :=
  ⟨a, p, rfl, h⟩

theorem yields_modifyGet {g : Parser → α × Parser} (h : Q (g p).1 (g p).2) :
    (modifyGet g : Reading α).Yields p Q :=
  ⟨(g p).1, (g p).2, rfl, h⟩

theorem yields_get {Q : Parser → Parser → Prop} (h : Q p p) : (get : Reading Parser).Yields p Q :=
  ⟨p, p, rfl, h⟩

theorem yields_kind {Q : Token.Kind → Parser → Prop} (h : Q p.cursor.current.kind p) :
    kind.Yields p Q :=
  .bind (yields_get (yields_pure h))

theorem yields_here {Q : Location → Parser → Prop} (h : ∀ l, Q l p) : here.Yields p Q :=
  .bind (yields_get (yields_pure (h _)))

theorem yields_spanFrom {start : Location} {Q : Location → Parser → Prop} (h : ∀ l, Q l p) :
    (spanFrom start).Yields p Q :=
  .bind (yields_get (yields_pure (h _)))

theorem yields_hasFailed {Q : Bool → Parser → Prop} (h : Q p.failed p) : hasFailed.Yields p Q :=
  .bind (yields_get (yields_pure h))

theorem yields_node {place : Location} {build : Tag → Node} {Q : Node → Parser → Prop}
    (h : ∀ t, Q (build t) { p with next := p.next + 1 }) : (node place build).Yields p Q :=
  .bind (yields_modifyGet (yields_pure (h _)))

end Reading

namespace Attempt

open Reading

variable {x : Attempt α} {f : α → Attempt β} {Q Q' : α → Parser → Prop} {R : β → Parser → Prop}

theorem Yields.mono (h : x.Yields p Q) (hQ : ∀ a q, Q a q → Q' a q) : x.Yields p Q' := by
  obtain ⟨a, q, hx, ha⟩ := h
  exact ⟨a, q, hx, hQ a q ha⟩

theorem Yields.bind (h : x.Yields p fun a q => (f a).Yields q R) : (x >>= f).Yields p R := by
  obtain ⟨a, q, hx, b, r, hf, hR⟩ := h
  refine ⟨b, r, ?_, hR⟩
  show (x.run >>= _ : Reading (Except Node β)).run p = _
  rw [StateT.run_bind, hx]
  exact hf

theorem yields_pure {a : α} (h : Q a p) : (pure a : Attempt α).Yields p Q :=
  ⟨a, p, rfl, h⟩

theorem yields_lift {y : Reading α} (h : y.Yields p Q) : (liftM y : Attempt α).Yields p Q := by
  obtain ⟨a, q, hy, ha⟩ := h
  refine ⟨a, q, ?_, ha⟩
  show (y >>= fun a => pure (Except.ok a) : Reading (Except Node α)).run p = _
  rw [StateT.run_bind, hy]
  rfl

theorem yields_get {Q : Parser → Parser → Prop} (h : Q p p) : (get : Attempt Parser).Yields p Q :=
  yields_lift (Reading.yields_get h)

theorem yields_orError {y : Attempt Node} {Q : Node → Parser → Prop} (h : y.Yields p Q) :
    (orError y).Yields p Q := by
  obtain ⟨n, q, hy, hn⟩ := h
  exact .bind ⟨_, q, hy, Reading.yields_pure hn⟩

theorem yields_valid {n : Node} {Q : Node → Parser → Prop} (hn : n.isInvalid = false) (h : Q n p) :
    (valid n).Yields p Q := by
  unfold valid
  rw [hn]
  exact yields_pure h

end Attempt

namespace Parser

open Reading Attempt Node

variable {q : Parser} {t u : Token} {ts us rest : List Token} {n : Node} {k : Token.Kind}

/-! ## Standing before tokens -/

/-- The parser has the tokens `ts` ahead of it, nothing is declared and no error is noted. -/
structure Stands (p : Parser) (ts : List Token) : Prop where
  outlook : p.outlook = ts
  proper : Token.Proper ts
  scope : p.scope.Empty
  failed : p.failed = false

theorem Stands.tick (h : Stands p ts) (next : Nat) : Stands { p with next := next } ts :=
  ⟨h.outlook, h.proper, h.scope, h.failed⟩

theorem Stands.current (h : Stands p (t :: ts)) : p.cursor.current.bare = t :=
  (List.cons.inj h.outlook).1

theorem Stands.kind (h : Stands p (t :: ts)) : p.cursor.current.kind = t.kind := by
  rw [← h.current]
  rfl

theorem Stands.text (h : Stands p (t :: ts)) : p.cursor.current.text = t.text := by
  rw [← h.current]
  rfl

theorem Stands.number (h : Stands p (t :: ts)) : p.cursor.current.number = t.number := by
  rw [← h.current]
  rfl

theorem Stands.forward (h : Stands p (t :: ts)) (ht : t.kind.isLast = false) :
    Stands { p with cursor := p.cursor.forward } ts := by
  have ho := Cursor.outlook_forward (h.outlook ▸ h.proper : Token.Proper p.outlook)
    (by rw [h.kind]; exact ht)
  refine ⟨?_, h.proper.tail ht, h.scope, h.failed⟩
  exact (List.cons.inj (ho.symm.trans h.outlook)).2

section Steps

variable {Q : Node → Parser → Prop}

theorem yields_forward {Q : PUnit → Parser → Prop} (h : Stands p (t :: ts))
    (ht : t.kind.isLast = false) (hQ : ∀ q, Stands q ts → Q ⟨⟩ q) : forward.Yields p Q :=
  yields_modifyGet (hQ _ (h.forward ht))

theorem yields_accept {Q : Bool → Parser → Prop} (h : Stands p (t :: ts)) (ht : t.kind = k)
    (hk : k.isLast = false) (hQ : ∀ q, Stands q ts → Q true q) : (accept k).Yields p Q := by
  refine yields_modifyGet ?_
  rw [show p.cursor.accept k = (true, p.cursor.forward) from if_pos (h.kind.trans ht)]
  exact hQ _ (h.forward (ht ▸ hk))

theorem yields_decline {Q : Bool → Parser → Prop} (h : Stands p (t :: ts)) (ht : t.kind ≠ k)
    (hQ : Q false p) : (accept k).Yields p Q := by
  refine yields_modifyGet ?_
  rw [show p.cursor.accept k = (false, p.cursor) from if_neg fun hk => ht (h.kind.symm.trans hk)]
  exact hQ

theorem Stands.isNamed (h : Stands p (t :: ts)) (s : String) :
    p.cursor.isNamed s = t.isWord s := by
  rw [← h.current]
  rfl

theorem yields_acceptName {s : String} {Q : Bool → Parser → Prop} (h : Stands p (t :: ts))
    (ht : t.isWord s = true) (hQ : ∀ q, Stands q ts → Q true q) : (acceptName s).Yields p Q := by
  refine yields_modifyGet ?_
  rw [show p.cursor.acceptName s = (true, p.cursor.forward) from if_pos ((h.isNamed s).trans ht)]
  exact hQ _ (h.forward (by rw [Token.kind_of_isWord ht]; rfl))

theorem yields_declineName {s : String} {Q : Bool → Parser → Prop} (h : Stands p (t :: ts))
    (ht : t.isWord s = false) (hQ : Q false p) : (acceptName s).Yields p Q := by
  refine yields_modifyGet ?_
  rw [show p.cursor.acceptName s = (false, p.cursor) from
    if_neg (by rw [h.isNamed s, ht]; simp)]
  exact hQ

theorem yields_expect {Q : PUnit → Parser → Prop} (h : Stands p (t :: ts)) (ht : t.kind = k)
    (hk : k.isLast = false) (hQ : ∀ q, Stands q ts → Q ⟨⟩ q) : (expect k).Yields p Q :=
  .bind (yields_lift (yields_accept h ht hk fun q hq => Attempt.yields_pure (hQ q hq)))

theorem yields_takeNameOr {what : String} {Q : String → Parser → Prop} (h : Stands p (t :: ts))
    (ht : t.kind = .identifier) (hQ : ∀ q, Stands q ts → Q t.text q) :
    (takeNameOr what).Yields p Q := by
  refine .bind (yields_lift (yields_modifyGet ?_))
  rw [show p.cursor.takeText .identifier = (some p.cursor.current.text, p.cursor.forward) from
    if_pos (by rw [h.kind, ht]; rfl), h.text]
  exact Attempt.yields_pure (hQ _ (h.forward (by rw [ht]; rfl)))

theorem yields_spanned {start : Location} {build : Tag → Node} (h : Stands p ts)
    (hQ : ∀ t q, Stands q ts → Q (build t) q) :
    Attempt.Yields (do Reading.node (← spanFrom start) build) p Q :=
  .bind (yields_lift (yields_spanFrom fun _ => yields_lift (yields_node fun t =>
    hQ t _ (h.tick _))))

theorem yields_built {place : Location} {build : Tag → Node} (h : Stands p ts)
    (hQ : ∀ t q, Stands q ts → Q (build t) q) : (Reading.node place build).Yields p Q :=
  yields_node fun t => hQ t _ (h.tick _)

end Steps

/-! ## Words -/

section Named

variable {fuel : Nat} {place : Location} {s : String}

theorem named_constant {v : Value} (h : namedConstant? s = some v) :
    named (fuel + 1) place s = (do forward; Reading.node place (.constant · v)) := by
  unfold named
  simp only [h]

theorem named_name (h : namedConstant? s = none) (hs : s ∉ keywords) :
    named (fuel + 1) place s = (do forward; nameNode s place) := by
  unfold named
  simp only [h]
  split <;> simp_all [keywords]

theorem named_if : named (fuel + 1) place "if" = ifStatement fuel place := by
  unfold named
  rfl

theorem named_while : named (fuel + 1) place "while" = whileStatement fuel place := by
  unfold named
  rfl

theorem named_do : named (fuel + 1) place "do" = doStatement fuel place := by
  unfold named
  rfl

theorem named_return : named (fuel + 1) place "return" = returnStatement fuel place := by
  unfold named
  rfl

theorem named_break :
    named (fuel + 1) place "break" = (do forward; Reading.node place (.jump · .break)) := by
  unfold named
  rfl

theorem named_continue :
    named (fuel + 1) place "continue" = (do forward; Reading.node place (.jump · .continue)) := by
  unfold named
  rfl

end Named

/-! ## The grammar -/

/-- What the goal needs on top of eight units of fuel for each token. -/
@[simp]
def Goal.base : Goal → Nat
  | .operation _ | .arguments | .condition => 0
  | .operations .. => 1
  | .operand _ => 2
  | .expression _ => 3
  | .argumentList | .statement => 4
  | .statements _ => 5

/-- The reader for the goal, begun with `p`, gives nodes of the shapes `ns` and stops before `rest`. -/
def Realised (fuel : Nat) (p : Parser) (ns : List Node) (rest : List Token) : Goal → Prop
  | .expression power => (expression fuel power).Yields p fun n q => [n.shape] = ns ∧ Stands q rest
  | .operations power l => ∀ left, left.shape = l →
      (operations fuel power left).Yields p fun n q => [n.shape] = ns ∧ Stands q rest
  | .operand power => (operand fuel power).Yields p fun n q => [n.shape] = ns ∧ Stands q rest
  | .operation l => ∀ left, left.shape = l →
      (operation fuel left).Yields p fun n q => [n.shape] = ns ∧ Stands q rest
  | .arguments => (arguments fuel).Yields p fun as q => shapes as = ns ∧ Stands q rest
  | .argumentList => (argumentList fuel).Yields p fun as q => shapes as = ns ∧ Stands q rest
  | .condition => (condition fuel).Yields p fun n q => [n.shape] = ns ∧ Stands q rest
  | .statement => (statement fuel).Yields p fun n q => [n.shape] = ns ∧ Stands q rest
  | .statements closing =>
      (statements fuel closing).Yields p fun ss q => shapes ss = ns ∧ Stands q rest

/-- Whether the goal continues an error node. -/
def Goal.isSane : Goal → Bool
  | .operations _ l | .operation l => !l.isInvalid
  | _ => true

/-- No error node is derived. -/
theorem Derives.isInvalid {g : Goal} {ns : List Node} (h : Derives g ts ns rest)
    (hg : g.isSane = true) : ∀ n ∈ ns, n.isInvalid = false := by
  induction h with
  | braces _ _ ih =>
    intro n hn
    obtain rfl := List.mem_singleton.1 hn
    unfold grouped
    split
    · exact ih rfl _ (by simp)
    · rfl
  | _ => simp_all [Goal.isSane, Node.isInvalid]

theorem Derives.valid {power : Nat} {m : Node} (h : Derives (.expression power) ts [m] rest)
    (hn : [n.shape] = [m]) : n.isInvalid = false := by
  rw [← isInvalid_shape, (List.cons.inj hn).1]
  exact h.isInvalid rfl m (by simp)

/-- The reader for the goal finds `ns` in front of `rest`. -/
def Finds (g : Goal) (ts : List Token) (ns : List Node) (rest : List Token) : Prop :=
  ∀ p fuel, Stands p ts → 8 * ts.length + g.base ≤ 8 * rest.length + fuel → Realised fuel p ns rest g

section Productions

variable {power : Nat} {l m n a b c : Node} {as ss : List Node} {ts₁ ts₂ ts₃ : List Token}

/-! ### Operators -/

theorem finds_expression (ht : t.kind.isLast = false)
    (h₁ : Derives (.operand power) (t :: ts) [l] ts₁) (h₂ : Derives (.operations power l) ts₁ [n] ts₂)
    (ih₁ : Finds (.operand power) (t :: ts) [l] ts₁) (ih₂ : Finds (.operations power l) ts₁ [n] ts₂) :
    Finds (.expression power) (t :: ts) [n] ts₂ := by
  intro p fuel hp hf
  have l₁ := h₁.length_le
  have l₂ := h₂.length_le
  simp only [Finds, Goal.base, Goal.least] at l₁ l₂ hf ih₁ ih₂
  obtain ⟨fuel, rfl⟩ : ∃ f, fuel = f + 1 := ⟨fuel - 1, by omega⟩
  show (Parser.expression _ _).Yields p _
  rw [Parser.expression]
  refine .bind (yields_kind ?_)
  rw [hp.kind, ht]
  refine .bind (yields_orError ((ih₁ p fuel hp (by omega)).mono ?_))
  rintro l q ⟨hl, hq⟩
  exact ih₂ q fuel hq (by omega) l (List.cons.inj hl).1

theorem finds_stop (hc : ¬ (power < t.kind.precedence ∧ continues t.kind = true)) :
    Finds (.operations power l) (t :: ts) [l] (t :: ts) := by
  rintro p fuel hp hf left rfl
  simp only [Goal.base] at hf
  obtain ⟨fuel, rfl⟩ : ∃ f, fuel = f + 1 := ⟨fuel - 1, by omega⟩
  rw [Parser.operations]
  refine .bind (yields_kind (.bind (yields_hasFailed ?_)))
  rw [if_neg (by simpa [hp.kind, hp.failed] using hc)]
  exact Reading.yields_pure ⟨rfl, hp⟩

theorem finds_more (hlt : power < t.kind.precedence) (hc : continues t.kind = true)
    (h₁ : Derives (.operation l) (t :: ts) [m] ts₁) (h₂ : Derives (.operations power m) ts₁ [n] ts₂)
    (ih₁ : Finds (.operation l) (t :: ts) [m] ts₁) (ih₂ : Finds (.operations power m) ts₁ [n] ts₂) :
    Finds (.operations power l) (t :: ts) [n] ts₂ := by
  rintro p fuel hp hf left rfl
  have l₁ := h₁.length_le
  have l₂ := h₂.length_le
  simp only [Finds, Goal.base, Goal.least] at l₁ l₂ hf ih₁ ih₂
  obtain ⟨fuel, rfl⟩ : ∃ f, fuel = f + 1 := ⟨fuel - 1, by omega⟩
  rw [Parser.operations]
  refine .bind (yields_kind (.bind (yields_hasFailed ?_)))
  rw [if_pos (by simp [hp.kind, hp.failed, hlt, hc])]
  refine .bind (yields_orError ((ih₁ p fuel hp (by omega) left rfl).mono ?_))
  rintro m q ⟨hm, hq⟩
  exact ih₂ q fuel hq (by omega) m (List.cons.inj hm).1

/-- The reader of an operation that begins with `t` has fuel for what follows. -/
theorem finds_operation (hle : rest.length ≤ ts.length)
    (h : ∀ left p fuel, left.shape = l → Stands p (t :: ts) →
      8 * ts.length + 7 ≤ 8 * rest.length + fuel → (operation (fuel + 1) left).Yields p fun n q =>
        [n.shape] = as ∧ Stands q rest) : Finds (.operation l) (t :: ts) as rest := by
  intro p fuel hp hf left hl
  simp only [Goal.base, List.length_cons] at hf
  obtain ⟨fuel, rfl⟩ : ∃ f, fuel = f + 1 := ⟨fuel - 1, by omega⟩
  exact h left p fuel hl hp (by omega)

theorem finds_binary {op : BinaryOp} (ht : t.kind = .binary op)
    (h₁ : Derives (.expression (if op.isLogical then rightPower t.kind else t.kind.precedence)) ts [b]
      ts₁)
    (ih₁ : Finds (.expression (if op.isLogical then rightPower t.kind else t.kind.precedence)) ts [b]
      ts₁) : Finds (.operation l) (t :: ts) [.binary {} op l b] ts₁ := by
  refine finds_operation h₁.length_le fun left p fuel hl hp hf => ?_
  rw [ht] at ih₁
  rw [Parser.operation]
  refine .bind (yields_lift (yields_kind ?_))
  rw [hp.kind, ht]
  refine .bind (yields_lift (yields_forward hp (by rw [ht]; rfl) fun q hq => ?_))
  refine .bind (yields_lift ((ih₁ q fuel hq (by simp only [Goal.base]; omega)).mono ?_))
  rintro r q₁ ⟨hr, hq₁⟩
  refine yields_lift (yields_built hq₁ fun tag q₂ hq₂ => ⟨?_, hq₂⟩)
  rw [← hl, ← (List.cons.inj hr).1]
  rfl

theorem finds_member (ht : t.kind = .dot) (hu : u.kind = .identifier) :
    Finds (.operation l) (t :: u :: ts) [.member {} l u.text] ts := by
  refine finds_operation (Nat.le_succ _) fun left p fuel hl hp hf => ?_
  rw [Parser.operation]
  refine .bind (yields_lift (yields_kind ?_))
  rw [hp.kind, ht]
  refine .bind (yields_lift (yields_forward hp (by rw [ht]; rfl) fun q hq => ?_))
  refine .bind (yields_takeNameOr hq hu fun q₁ hq₁ => yields_spanned hq₁ fun tag q₂ hq₂ => ⟨?_, hq₂⟩)
  rw [← hl]
  rfl

theorem finds_index (ht : t.kind = .openSquare) (h₁ : Derives (.expression 0) ts [a] (u :: ts₁))
    (hu : u.kind = .closeSquare) (ih₁ : Finds (.expression 0) ts [a] (u :: ts₁)) :
    Finds (.operation l) (t :: ts) [.index {} l a] ts₁ := by
  have l₁ := h₁.length_le
  simp only [Goal.least, List.length_cons] at l₁
  refine finds_operation (by omega) fun left p fuel hl hp hf => ?_
  rw [Parser.operation]
  refine .bind (yields_lift (yields_kind ?_))
  rw [hp.kind, ht]
  refine .bind (yields_lift (yields_forward hp (by rw [ht]; rfl) fun q hq => ?_))
  refine .bind (yields_lift ((ih₁ q fuel hq (by simp only [Goal.base, List.length_cons]; omega)).mono ?_))
  rintro i q₁ ⟨hi, hq₁⟩
  refine .bind (yields_valid (h₁.valid hi) ?_)
  refine .bind (yields_expect hq₁ hu rfl fun q₂ hq₂ => yields_spanned hq₂ fun tag q₃ hq₃ => ⟨?_, hq₃⟩)
  rw [← hl, ← (List.cons.inj hi).1]
  rfl

theorem finds_call (ht : t.kind = .openPar) (h₁ : Derives .arguments ts as ts₁)
    (ih₁ : Finds .arguments ts as ts₁) : Finds (.operation l) (t :: ts) [.call {} l as] ts₁ := by
  have l₁ := h₁.length_le
  simp only [Goal.least] at l₁
  refine finds_operation (by omega) fun left p fuel hl hp hf => ?_
  rw [Parser.operation]
  refine .bind (yields_lift (yields_kind ?_))
  rw [hp.kind, ht]
  refine .bind (yields_lift (yields_forward hp (by rw [ht]; rfl) fun q hq => ?_))
  refine .bind ((ih₁ q fuel hq (by simp only [Goal.base]; omega)).mono ?_)
  rintro as' q₁ ⟨has, hq₁⟩
  refine yields_spanned hq₁ fun tag q₂ hq₂ => ⟨?_, hq₂⟩
  rw [← hl, ← has]
  rfl

theorem finds_ternary (ht : t.kind = .questionMark)
    (h₁ : Derives (.expression (rightPower .assign)) ts [a] (u :: ts₁)) (hu : u.kind = .colon)
    (h₂ : Derives (.expression (rightPower t.kind)) ts₁ [b] ts₂)
    (ih₁ : Finds (.expression (rightPower .assign)) ts [a] (u :: ts₁))
    (ih₂ : Finds (.expression (rightPower t.kind)) ts₁ [b] ts₂) :
    Finds (.operation l) (t :: ts) [.choice {} true l a b] ts₂ := by
  have l₁ := h₁.length_le
  have l₂ := h₂.length_le
  simp only [Goal.least, List.length_cons] at l₁ l₂
  refine finds_operation (by omega) fun left p fuel hl hp hf => ?_
  rw [ht] at ih₂
  rw [Parser.operation]
  refine .bind (yields_lift (yields_kind ?_))
  rw [hp.kind, ht]
  refine .bind (yields_lift (yields_forward hp (by rw [ht]; rfl) fun q hq => ?_))
  refine .bind (yields_lift ((ih₁ q fuel hq (by simp only [Goal.base, List.length_cons]; omega)).mono ?_))
  rintro a' q₁ ⟨ha, hq₁⟩
  refine .bind (yields_valid (h₁.valid ha) (.bind (yields_expect hq₁ hu rfl fun q₂ hq₂ => ?_)))
  refine .bind (yields_lift ((ih₂ q₂ fuel hq₂ (by simp only [Goal.base]; omega)).mono ?_))
  rintro b' q₃ ⟨hb, hq₃⟩
  refine yields_lift (yields_built hq₃ fun tag q₄ hq₄ => ⟨?_, hq₄⟩)
  rw [← hl, ← (List.cons.inj ha).1, ← (List.cons.inj hb).1]
  rfl

theorem finds_assign (ht : t.kind = .assign) (hl : l.isAssignable = true)
    (h₁ : Derives (.expression (rightPower t.kind)) ts [a] ts₁)
    (ih₁ : Finds (.expression (rightPower t.kind)) ts [a] ts₁) :
    Finds (.operation l) (t :: ts) [.assign {} l a] ts₁ := by
  refine finds_operation h₁.length_le fun left p fuel hs hp hf => ?_
  rw [← hs, isAssignable_shape] at hl
  rw [ht] at ih₁
  rw [Parser.operation]
  refine .bind (yields_lift (yields_kind ?_))
  rw [hp.kind, ht]
  simp only [hl, if_true]
  refine .bind (yields_lift (yields_forward hp (by rw [ht]; rfl) fun q hq => ?_))
  refine .bind (yields_lift ((ih₁ q fuel hq (by simp only [Goal.base]; omega)).mono ?_))
  rintro v q₁ ⟨hv, hq₁⟩
  refine yields_lift (yields_built hq₁ fun tag q₂ hq₂ => ⟨?_, hq₂⟩)
  rw [← hs, ← (List.cons.inj hv).1]
  rfl

theorem finds_compound {op : Arith} (ht : t.kind = .compound op) (hl : l.isAssignable = true)
    (h₁ : Derives (.expression (rightPower t.kind)) ts [a] ts₁)
    (ih₁ : Finds (.expression (rightPower t.kind)) ts [a] ts₁) :
    Finds (.operation l) (t :: ts) [.assign {} l (.binary {} (.arith op) l a)] ts₁ := by
  refine finds_operation h₁.length_le fun left p fuel hs hp hf => ?_
  rw [← hs, isAssignable_shape] at hl
  rw [ht] at ih₁
  rw [Parser.operation]
  refine .bind (yields_lift (yields_kind ?_))
  rw [hp.kind, ht]
  simp only [hl, if_true]
  refine .bind (yields_lift (yields_forward hp (by rw [ht]; rfl) fun q hq => ?_))
  refine .bind (yields_lift ((ih₁ q fuel hq (by simp only [Goal.base]; omega)).mono ?_))
  rintro v q₁ ⟨hv, hq₁⟩
  refine .bind (yields_lift (yields_built hq₁ fun tag₁ q₂ hq₂ => ?_))
  refine yields_lift (yields_built hq₂ fun tag₂ q₃ hq₃ => ⟨?_, hq₃⟩)
  rw [← hs, ← (List.cons.inj hv).1]
  rfl

theorem finds_postfixed (ht : t.kind = .increment ∨ t.kind = .decrement)
    (hl : l.isAssignable = true) :
    Finds (.operation l) (t :: ts) [.adjust {} ⟨t.kind = .increment, false⟩ l] ts := by
  refine finds_operation (Nat.le_refl _) fun left p fuel hs hp hf => ?_
  rw [← hs, isAssignable_shape] at hl
  rw [Parser.operation]
  refine .bind (yields_lift (yields_kind ?_))
  rw [hp.kind]
  have hlast : t.kind.isLast = false := by rcases ht with ht | ht <;> rw [ht] <;> rfl
  have done : Attempt.Yields (do
      forward
      Reading.node (← spanFrom left.place) (.adjust · ⟨t.kind = .increment, false⟩ left)) p
        fun n q => [n.shape] = [.adjust {} ⟨t.kind = .increment, false⟩ l] ∧ Stands q ts :=
    .bind (yields_lift (yields_forward hp hlast fun q hq => yields_spanned hq fun tag q₁ hq₁ =>
      ⟨by rw [← hs]; rfl, hq₁⟩))
  rcases ht with ht | ht
  · rw [ht] at done ⊢
    simpa only [hl, if_true] using done
  · rw [ht] at done ⊢
    simpa only [hl, if_true] using done

/-! ### Arguments -/

theorem finds_noArguments (ht : t.kind = .closePar) : Finds .arguments (t :: ts) [] ts := by
  intro p fuel hp hf
  simp only [Goal.base, List.length_cons] at hf
  obtain ⟨fuel, rfl⟩ : ∃ f, fuel = f + 1 := ⟨fuel - 1, by omega⟩
  show (Parser.arguments _).Yields p _
  rw [Parser.arguments]
  exact .bind (yields_lift (yields_accept hp ht rfl fun q hq => Attempt.yields_pure ⟨rfl, hq⟩))

theorem finds_someArguments (ht : t.kind ≠ .closePar)
    (h₁ : Derives .argumentList (t :: ts) as (u :: ts₁)) (hu : u.kind = .closePar)
    (ih₁ : Finds .argumentList (t :: ts) as (u :: ts₁)) : Finds .arguments (t :: ts) as ts₁ := by
  intro p fuel hp hf
  have l₁ := h₁.length_le
  simp only [Goal.base, Goal.least, List.length_cons] at l₁ hf
  obtain ⟨fuel, rfl⟩ : ∃ f, fuel = f + 1 := ⟨fuel - 1, by omega⟩
  show (Parser.arguments _).Yields p _
  rw [Parser.arguments]
  refine .bind (yields_lift (yields_decline hp ht ?_))
  refine .bind ((ih₁ p fuel hp (by simp only [Goal.base, List.length_cons]; omega)).mono ?_)
  rintro as q ⟨has, hq⟩
  exact .bind (yields_expect hq hu rfl fun q₁ hq₁ => Attempt.yields_pure ⟨has, hq₁⟩)

theorem finds_lastArgument (h₁ : Derives (.expression argumentPower) ts [a] (u :: ts₁))
    (hu : u.kind ≠ .comma) (ih₁ : Finds (.expression argumentPower) ts [a] (u :: ts₁)) :
    Finds .argumentList ts [a] (u :: ts₁) := by
  intro p fuel hp hf
  have l₁ := h₁.length_le
  simp only [Goal.base, Goal.least, List.length_cons] at l₁ hf
  obtain ⟨fuel, rfl⟩ : ∃ f, fuel = f + 1 := ⟨fuel - 1, by omega⟩
  show (Parser.argumentList _).Yields p _
  rw [Parser.argumentList]
  refine .bind (yields_lift ((ih₁ p fuel hp (by simp only [Goal.base, List.length_cons]; omega)).mono ?_))
  rintro a' q ⟨ha, hq⟩
  refine .bind (yields_valid (h₁.valid ha) ?_)
  exact .bind (yields_lift (yields_decline hq hu (Attempt.yields_pure ⟨ha, hq⟩)))

theorem finds_nextArgument (h₁ : Derives (.expression argumentPower) ts [a] (u :: ts₁))
    (hu : u.kind = .comma) (h₂ : Derives .argumentList ts₁ as ts₂)
    (ih₁ : Finds (.expression argumentPower) ts [a] (u :: ts₁)) (ih₂ : Finds .argumentList ts₁ as ts₂) :
    Finds .argumentList ts (a :: as) ts₂ := by
  intro p fuel hp hf
  have l₁ := h₁.length_le
  have l₂ := h₂.length_le
  simp only [Goal.base, Goal.least, List.length_cons] at l₁ l₂ hf
  obtain ⟨fuel, rfl⟩ : ∃ f, fuel = f + 1 := ⟨fuel - 1, by omega⟩
  show (Parser.argumentList _).Yields p _
  rw [Parser.argumentList]
  refine .bind (yields_lift ((ih₁ p fuel hp (by simp only [Goal.base, List.length_cons]; omega)).mono ?_))
  rintro a' q ⟨ha, hq⟩
  refine .bind (yields_valid (h₁.valid ha) ?_)
  refine .bind (yields_lift (yields_accept hq hu rfl fun q₁ hq₁ => ?_))
  refine .bind ((ih₂ q₁ fuel hq₁ (by simp only [Goal.base]; omega)).mono ?_)
  rintro as' q₂ ⟨has, hq₂⟩
  refine Attempt.yields_pure ⟨?_, hq₂⟩
  rw [shapes, has, (List.cons.inj ha).1]

/-! ### Operands -/

/-- The reader of an operand that begins with `t` has fuel for what follows. -/
theorem finds_operand (hle : rest.length ≤ ts.length)
    (h : ∀ p fuel, Stands p (t :: ts) → 8 * ts.length + 9 ≤ 8 * rest.length + fuel →
      (operand (fuel + 1) power).Yields p fun n q => [n.shape] = as ∧ Stands q rest) :
    Finds (.operand power) (t :: ts) as rest := by
  intro p fuel hp hf
  simp only [Goal.base, List.length_cons] at hf
  obtain ⟨fuel, rfl⟩ : ∃ f, fuel = f + 1 := ⟨fuel - 1, by omega⟩
  exact h p fuel hp (by omega)

theorem finds_number {form : NumberForm} (ht : t.kind = .number form) :
    Finds (.operand power) (t :: ts) [.constant {} (.number t.number)] ts := by
  refine finds_operand (Nat.le_refl _) fun p fuel hp hf => ?_
  rw [Parser.operand]
  refine .bind (yields_lift (yields_here fun place => .bind (Attempt.yields_get ?_)))
  simp only [hp.kind, ht, hp.number]
  refine .bind (yields_lift (yields_forward hp (by rw [ht]; rfl) fun q hq => ?_))
  exact yields_lift (yields_built hq fun tag q₁ hq₁ => ⟨rfl, hq₁⟩)

theorem finds_string (ht : t.kind = .string) :
    Finds (.operand power) (t :: ts) [.constant {} (.string t.text)] ts := by
  refine finds_operand (Nat.le_refl _) fun p fuel hp hf => ?_
  rw [Parser.operand]
  refine .bind (yields_lift (yields_here fun place => .bind (Attempt.yields_get ?_)))
  simp only [hp.kind, ht, hp.text]
  refine .bind (yields_lift (yields_forward hp (by rw [ht]; rfl) fun q hq => ?_))
  exact yields_lift (yields_built hq fun tag q₁ hq₁ => ⟨rfl, hq₁⟩)

theorem finds_prefixed (ht : t.kind = .increment ∨ t.kind = .decrement)
    (h₁ : Derives (.expression unaryPower) ts [n] ts₁) (hn : n.isAssignable = true)
    (ih₁ : Finds (.expression unaryPower) ts [n] ts₁) :
    Finds (.operand power) (t :: ts) [.adjust {} ⟨t.kind = .increment, true⟩ n] ts₁ := by
  refine finds_operand h₁.length_le fun p fuel hp hf => ?_
  rw [Parser.operand]
  refine .bind (yields_lift (yields_here fun place => .bind (Attempt.yields_get ?_)))
  have hlast : t.kind.isLast = false := by rcases ht with ht | ht <;> rw [ht] <;> rfl
  have done : Attempt.Yields (do
      forward
      let n ← Attempt.valid (← expression fuel unaryPower)
      if n.isAssignable then
        Reading.node (← spanFrom place) (.adjust · ⟨t.kind = .increment, true⟩ n)
      else fail (errorAt n.place notAdjustable)) p
        fun m q => [m.shape] = [.adjust {} ⟨t.kind = .increment, true⟩ n] ∧ Stands q ts₁ := by
    refine .bind (yields_lift (yields_forward hp hlast fun q hq => ?_))
    refine .bind (yields_lift ((ih₁ q fuel hq (by simp only [Goal.base]; omega)).mono ?_))
    rintro m q₁ ⟨hm, hq₁⟩
    refine .bind (yields_valid (h₁.valid hm) ?_)
    rw [if_pos (by rw [← isAssignable_shape, (List.cons.inj hm).1]; exact hn)]
    exact yields_spanned hq₁ fun tag q₂ hq₂ => ⟨by rw [← (List.cons.inj hm).1]; rfl, hq₂⟩
  rcases ht with ht | ht
  · rw [ht] at done
    simpa only [hp.kind, ht] using done
  · rw [ht] at done
    simpa only [hp.kind, ht] using done

theorem finds_unary {op : UnaryOp} (ht : t.kind.unary? = some op)
    (h₁ : Derives (.expression unaryPower) ts [n] ts₁)
    (ih₁ : Finds (.expression unaryPower) ts [n] ts₁) :
    Finds (.operand power) (t :: ts) [.unary {} op n] ts₁ := by
  refine finds_operand h₁.length_le fun p fuel hp hf => ?_
  rw [Parser.operand]
  refine .bind (yields_lift (yields_here fun place => .bind (Attempt.yields_get ?_)))
  simp only [hp.kind]
  split
  case h_9 =>
    simp only [ht]
    refine .bind (yields_lift (yields_forward hp (next_of_unary ht).1 fun q hq => ?_))
    refine .bind (yields_lift ((ih₁ q fuel hq (by simp only [Goal.base]; omega)).mono ?_))
    rintro m q₁ ⟨hm, hq₁⟩
    exact yields_spanned hq₁ fun tag q₂ hq₂ => ⟨by rw [← (List.cons.inj hm).1]; rfl, hq₂⟩
  -- The kinds with a case of their own are no operators.
  all_goals
    rename_i hk
    simp [hk, Token.Kind.unary?] at ht

theorem finds_parens (ht : t.kind = .openPar) (h₁ : Derives (.expression 0) ts [n] (u :: ts₁))
    (hu : u.kind = .closePar) (ih₁ : Finds (.expression 0) ts [n] (u :: ts₁)) :
    Finds (.operand power) (t :: ts) [n] ts₁ := by
  have l₁ := h₁.length_le
  simp only [Goal.least, List.length_cons] at l₁
  refine finds_operand (by omega) fun p fuel hp hf => ?_
  rw [Parser.operand]
  refine .bind (yields_lift (yields_here fun place => .bind (Attempt.yields_get ?_)))
  simp only [hp.kind, ht]
  refine .bind (yields_lift (yields_forward hp (by rw [ht]; rfl) fun q hq => ?_))
  refine .bind (yields_lift ((ih₁ q fuel hq (by simp only [Goal.base, List.length_cons]; omega)).mono ?_))
  rintro m q₁ ⟨hm, hq₁⟩
  refine .bind (yields_valid (h₁.valid hm) ?_)
  exact .bind (yields_expect hq₁ hu rfl fun q₂ hq₂ => Attempt.yields_pure ⟨hm, hq₂⟩)

theorem finds_nop (ht : t.kind = .semicolon) :
    Finds (.operand 0) (t :: ts) [.nop {}] (t :: ts) := by
  intro p fuel hp hf
  simp only [Goal.base] at hf
  obtain ⟨fuel, rfl⟩ : ∃ f, fuel = f + 1 := ⟨fuel - 1, by omega⟩
  show (Parser.operand _ _).Yields p _
  rw [Parser.operand]
  refine .bind (yields_lift (yields_here fun place => .bind (Attempt.yields_get ?_)))
  simp only [hp.kind, ht, Token.Kind.unary?]
  exact yields_lift (yields_built hp fun tag q hq => ⟨rfl, hq⟩)

/-- Closing a scope that declares nothing gives no locals. -/
theorem yields_closeScope {Q : List Declaration → Parser → Prop} (h : Stands p ts)
    (hQ : ∀ q, Stands q ts → Q [] q) : closeScope.Yields p Q := by
  refine yields_modifyGet ?_
  cases hc : p.scope.close with
  | error => exact hQ p h
  | ok x =>
    obtain ⟨ds, scope⟩ := x
    obtain ⟨rfl, he⟩ := h.scope.close hc
    exact hQ _ ⟨h.outlook, h.proper, he, h.failed⟩

theorem yields_blockOf {place : Location} {ms : List Node} {Q : Node → Parser → Prop}
    (h : Stands p ts) (hm : shapes ms = ss) (hQ : ∀ n q, n.shape = grouped ss → Stands q ts → Q n q) :
    (blockOf place ms []).Yields p Q := by
  subst hm
  cases ms with
  | nil =>
    show (Reading.node place (.block · [] [])).Yields p Q
    exact yields_built h fun tag q hq => hQ _ _ rfl hq
  | cons m ms =>
    cases ms with
    | nil => exact Reading.yields_pure (hQ _ _ rfl h)
    | cons m' ms =>
      show (Reading.node place (.block · (m :: m' :: ms) [])).Yields p Q
      exact yields_built h fun tag q hq => hQ _ _ rfl hq

theorem finds_braces (ht : t.kind = .openCurly) (h₁ : Derives (.statements (some .closeCurly)) ts ss ts₁)
    (ih₁ : Finds (.statements (some .closeCurly)) ts ss ts₁) :
    Finds (.operand power) (t :: ts) [grouped ss] ts₁ := by
  refine finds_operand h₁.length_le fun p fuel hp hf => ?_
  have l₁ := h₁.length_le
  simp only [Goal.least] at l₁
  obtain ⟨fuel, rfl⟩ : ∃ f, fuel = f + 1 := ⟨fuel - 1, by omega⟩
  rw [Parser.operand]
  refine .bind (yields_lift (yields_here fun place => .bind (Attempt.yields_get ?_)))
  simp only [hp.kind, ht]
  refine .bind (yields_lift (yields_forward hp (by rw [ht]; rfl) fun q hq => yields_lift ?_))
  rw [Parser.block]
  have hopen : Stands { q with scope := q.scope.opened } ts :=
    ⟨hq.outlook, hq.proper, hq.scope.opened, hq.failed⟩
  refine .bind (yields_modifyGet (.bind ((ih₁ _ fuel hopen (by simp only [Goal.base]; omega)).mono ?_)))
  rintro ms q₁ ⟨hms, hq₁⟩
  refine .bind (yields_closeScope hq₁ fun q₂ hq₂ => .bind (yields_spanFrom fun _ => ?_))
  exact yields_blockOf hq₂ hms fun n q₃ hn hq₃ => ⟨by rw [hn], hq₃⟩

/-! ### Words -/

/-- The reader of a name has fuel for what follows. -/
theorem finds_word (ht : t.kind = .identifier) (hle : rest.length ≤ ts.length)
    (h : ∀ p place fuel, Stands p (t :: ts) → 8 * ts.length + 8 ≤ 8 * rest.length + fuel →
      (named (fuel + 1) place t.text).Yields p fun n q => [n.shape] = as ∧ Stands q rest) :
    Finds (.operand power) (t :: ts) as rest := by
  refine finds_operand hle fun p fuel hp hf => ?_
  obtain ⟨fuel, rfl⟩ : ∃ f, fuel = f + 1 := ⟨fuel - 1, by omega⟩
  rw [Parser.operand]
  refine .bind (yields_lift (yields_here fun place => .bind (Attempt.yields_get ?_)))
  simp only [hp.kind, ht, hp.text]
  exact h p place fuel hp (by omega)

/-- A word that is a node by itself. -/
theorem finds_leaf (ht : t.kind = .identifier) {build : Tag → Node}
    (hb : ∀ fuel place, named (fuel + 1) place t.text = (do forward; Reading.node place build))
    (hn : ∀ tag, (build tag).shape = n) : Finds (.operand power) (t :: ts) [n] ts := by
  refine finds_word ht (Nat.le_refl _) fun p place fuel hp hf => ?_
  rw [hb]
  refine .bind (yields_lift (yields_forward hp (by rw [ht]; rfl) fun q hq => ?_))
  exact yields_lift (yields_built hq fun tag q₁ hq₁ => ⟨by rw [hn], hq₁⟩)

theorem finds_name (ht : t.kind = .identifier) (hv : namedConstant? t.text = none)
    (hs : t.text ∉ keywords) : Finds (.operand power) (t :: ts) [.name {} t.text] ts := by
  refine finds_word ht (Nat.le_refl _) fun p place fuel hp hf => ?_
  rw [named_name hv hs]
  refine .bind (yields_lift (yields_forward hp (by rw [ht]; rfl) fun q hq => yields_lift ?_))
  refine .bind (Reading.yields_get ?_)
  rw [hq.scope.unbound]
  exact yields_built hq fun tag q₁ hq₁ => ⟨rfl, hq₁⟩

/-- The reader of a statement that begins with the word `t` has fuel for what follows. -/
theorem finds_keyword {s : String} {reader : Nat → Location → Attempt Node}
    (ht : t.isWord s = true) (hle : rest.length ≤ ts.length)
    (hb : ∀ fuel place, named (fuel + 1) place s = reader fuel place)
    (h : ∀ p place fuel, Stands p (t :: ts) → 8 * ts.length + 7 ≤ 8 * rest.length + fuel →
      (reader (fuel + 1) place).Yields p fun n q => [n.shape] = as ∧ Stands q rest) :
    Finds (.operand power) (t :: ts) as rest := by
  refine finds_word (Token.kind_of_isWord ht) hle fun p place fuel hp hf => ?_
  obtain ⟨fuel, rfl⟩ : ∃ f, fuel = f + 1 := ⟨fuel - 1, by omega⟩
  rw [Token.text_of_isWord ht, hb]
  exact h p place fuel hp (by omega)

/-! ### Statements -/

theorem finds_bareReturn (ht : t.isWord "return" = true) (hu : endsReturn u.kind = true) :
    Finds (.operand power) (t :: u :: ts) [.jump {} .return] (u :: ts) := by
  refine finds_keyword ht (Nat.le_refl _) (fun _ _ => named_return) fun p place fuel hp hf => ?_
  rw [Parser.returnStatement]
  refine .bind (yields_lift (yields_forward hp (by rw [Token.kind_of_isWord ht]; rfl) fun q hq => ?_))
  refine .bind (yields_lift (yields_kind ?_))
  rw [hq.kind]
  split
  · exact yields_spanned hq fun tag q₁ hq₁ => ⟨rfl, hq₁⟩
  · exact yields_spanned hq fun tag q₁ hq₁ => ⟨rfl, hq₁⟩
  · exact yields_spanned hq fun tag q₁ hq₁ => ⟨rfl, hq₁⟩
  · simp_all [endsReturn]

theorem finds_giveBack (ht : t.isWord "return" = true) (hu : endsReturn u.kind = false)
    (h₁ : Derives (.expression 0) (u :: ts) [n] ts₁)
    (ih₁ : Finds (.expression 0) (u :: ts) [n] ts₁) :
    Finds (.operand power) (t :: u :: ts) [.giveBack {} n] ts₁ := by
  refine finds_keyword ht h₁.length_le (fun _ _ => named_return) fun p place fuel hp hf => ?_
  rw [Parser.returnStatement]
  refine .bind (yields_lift (yields_forward hp (by rw [Token.kind_of_isWord ht]; rfl) fun q hq => ?_))
  refine .bind (yields_lift (yields_kind ?_))
  rw [hq.kind]
  split
  · simp_all [endsReturn]
  · simp_all [endsReturn]
  · simp_all [endsReturn]
  · refine .bind (yields_lift ((ih₁ q fuel hq (by simp only [Goal.base]; omega)).mono ?_))
    rintro v q₁ ⟨hv, hq₁⟩
    refine .bind (yields_valid (h₁.valid hv) (yields_spanned hq₁ fun tag q₂ hq₂ => ⟨?_, hq₂⟩))
    rw [← (List.cons.inj hv).1]
    rfl

theorem finds_condition (ht : t.kind = .openPar) (h₁ : Derives (.expression 0) ts [c] (u :: ts₁))
    (hu : u.kind = .closePar) (ih₁ : Finds (.expression 0) ts [c] (u :: ts₁)) :
    Finds .condition (t :: ts) [c] ts₁ := by
  intro p fuel hp hf
  have l₁ := h₁.length_le
  simp only [Goal.base, Goal.least, List.length_cons] at l₁ hf
  obtain ⟨fuel, rfl⟩ : ∃ f, fuel = f + 1 := ⟨fuel - 1, by omega⟩
  show (Parser.condition _).Yields p _
  rw [Parser.condition]
  refine .bind (yields_expect hp ht rfl fun q hq => ?_)
  refine .bind (yields_lift ((ih₁ q fuel hq (by simp only [Goal.base, List.length_cons]; omega)).mono ?_))
  rintro c' q₁ ⟨hc, hq₁⟩
  refine .bind (yields_valid (h₁.valid hc) ?_)
  exact .bind (yields_expect hq₁ hu rfl fun q₂ hq₂ => Attempt.yields_pure ⟨hc, hq₂⟩)

theorem finds_guarded (ht : t.isWord "if" = true) (h₁ : Derives .condition ts [c] ts₁)
    (h₂ : Derives .statement ts₁ [a] (u :: ts₂)) (hu : u.isWord "else" = false)
    (ih₁ : Finds .condition ts [c] ts₁) (ih₂ : Finds .statement ts₁ [a] (u :: ts₂)) :
    Finds (.operand power) (t :: ts) [.guarded {} c a] (u :: ts₂) := by
  have l₁ := h₁.length_le
  have l₂ := h₂.length_le
  simp only [Goal.least, List.length_cons] at l₁ l₂
  refine finds_keyword ht (by simp only [List.length_cons]; omega) (fun _ _ => named_if)
    fun p place fuel hp hf => ?_
  simp only [List.length_cons] at hf
  rw [Parser.ifStatement]
  refine .bind (yields_lift (yields_forward hp (by rw [Token.kind_of_isWord ht]; rfl) fun q hq => ?_))
  refine .bind ((ih₁ q fuel hq (by simp only [Goal.base]; omega)).mono ?_)
  rintro c' q₁ ⟨hc, hq₁⟩
  refine .bind (yields_lift ((ih₂ q₁ fuel hq₁ (by simp only [Goal.base, List.length_cons]; omega)).mono ?_))
  rintro a' q₂ ⟨ha, hq₂⟩
  refine .bind (yields_lift (.bind (yields_hasFailed ?_)))
  rw [hq₂.failed]
  refine yields_declineName hq₂ hu (yields_spanned hq₂ fun tag q₃ hq₃ => ⟨?_, hq₃⟩)
  rw [← (List.cons.inj hc).1, ← (List.cons.inj ha).1]
  rfl

theorem finds_choice (ht : t.isWord "if" = true) (h₁ : Derives .condition ts [c] ts₁)
    (h₂ : Derives .statement ts₁ [a] (u :: ts₂)) (hu : u.isWord "else" = true)
    (h₃ : Derives .statement ts₂ [b] ts₃) (ih₁ : Finds .condition ts [c] ts₁)
    (ih₂ : Finds .statement ts₁ [a] (u :: ts₂)) (ih₃ : Finds .statement ts₂ [b] ts₃) :
    Finds (.operand power) (t :: ts) [.choice {} false c a b] ts₃ := by
  have l₁ := h₁.length_le
  have l₂ := h₂.length_le
  have l₃ := h₃.length_le
  simp only [Goal.least, List.length_cons] at l₁ l₂ l₃
  refine finds_keyword ht (by omega) (fun _ _ => named_if) fun p place fuel hp hf => ?_
  rw [Parser.ifStatement]
  refine .bind (yields_lift (yields_forward hp (by rw [Token.kind_of_isWord ht]; rfl) fun q hq => ?_))
  refine .bind ((ih₁ q fuel hq (by simp only [Goal.base]; omega)).mono ?_)
  rintro c' q₁ ⟨hc, hq₁⟩
  refine .bind (yields_lift ((ih₂ q₁ fuel hq₁ (by simp only [Goal.base, List.length_cons]; omega)).mono ?_))
  rintro a' q₂ ⟨ha, hq₂⟩
  refine .bind (yields_lift (.bind (yields_hasFailed ?_)))
  rw [hq₂.failed]
  refine yields_acceptName hq₂ hu fun q₃ hq₃ => ?_
  refine .bind (yields_lift ((ih₃ q₃ fuel hq₃ (by simp only [Goal.base]; omega)).mono ?_))
  rintro b' q₄ ⟨hb, hq₄⟩
  refine yields_spanned hq₄ fun tag q₅ hq₅ => ⟨?_, hq₅⟩
  rw [← (List.cons.inj hc).1, ← (List.cons.inj ha).1, ← (List.cons.inj hb).1]
  rfl

theorem finds_whileLoop (ht : t.isWord "while" = true) (h₁ : Derives .condition ts [c] ts₁)
    (h₂ : Derives .statement ts₁ [b] ts₂) (ih₁ : Finds .condition ts [c] ts₁)
    (ih₂ : Finds .statement ts₁ [b] ts₂) :
    Finds (.operand power) (t :: ts) [.loop {} false c b] ts₂ := by
  have l₁ := h₁.length_le
  have l₂ := h₂.length_le
  simp only [Goal.least] at l₁ l₂
  refine finds_keyword ht (by omega) (fun _ _ => named_while) fun p place fuel hp hf => ?_
  rw [Parser.whileStatement]
  refine .bind (yields_lift (yields_forward hp (by rw [Token.kind_of_isWord ht]; rfl) fun q hq => ?_))
  refine .bind ((ih₁ q fuel hq (by simp only [Goal.base]; omega)).mono ?_)
  rintro c' q₁ ⟨hc, hq₁⟩
  refine .bind (yields_lift ((ih₂ q₁ fuel hq₁ (by simp only [Goal.base]; omega)).mono ?_))
  rintro b' q₂ ⟨hb, hq₂⟩
  refine yields_spanned hq₂ fun tag q₃ hq₃ => ⟨?_, hq₃⟩
  rw [← (List.cons.inj hc).1, ← (List.cons.inj hb).1]
  rfl

theorem finds_doLoop (ht : t.isWord "do" = true) (h₁ : Derives .statement ts [b] (u :: ts₁))
    (hu : u.isWord "while" = true) (h₂ : Derives .condition ts₁ [c] ts₂)
    (ih₁ : Finds .statement ts [b] (u :: ts₁)) (ih₂ : Finds .condition ts₁ [c] ts₂) :
    Finds (.operand power) (t :: ts) [.loop {} true c b] ts₂ := by
  have l₁ := h₁.length_le
  have l₂ := h₂.length_le
  simp only [Goal.least, List.length_cons] at l₁ l₂
  refine finds_keyword ht (by omega) (fun _ _ => named_do) fun p place fuel hp hf => ?_
  rw [Parser.doStatement]
  refine .bind (yields_lift (yields_forward hp (by rw [Token.kind_of_isWord ht]; rfl) fun q hq => ?_))
  refine .bind (yields_lift ((ih₁ q fuel hq (by simp only [Goal.base, List.length_cons]; omega)).mono ?_))
  rintro b' q₁ ⟨hb, hq₁⟩
  have hb' : b'.isInvalid = false := by
    rw [← isInvalid_shape, (List.cons.inj hb).1]
    exact h₁.isInvalid rfl b (by simp)
  refine .bind (yields_valid hb' (.bind (yields_lift (yields_acceptName hq₁ hu fun q₂ hq₂ => ?_))))
  refine .bind ((ih₂ q₂ fuel hq₂ (by simp only [Goal.base]; omega)).mono ?_)
  rintro c' q₃ ⟨hc, hq₃⟩
  refine yields_spanned hq₃ fun tag q₄ hq₄ => ⟨?_, hq₄⟩
  rw [← (List.cons.inj hc).1, ← (List.cons.inj hb).1]
  rfl

theorem finds_terminated (h₁ : Derives (.expression 0) ts [n] (u :: ts₁)) (hu : u.kind = .semicolon)
    (ih₁ : Finds (.expression 0) ts [n] (u :: ts₁)) : Finds .statement ts [n] ts₁ := by
  intro p fuel hp hf
  have l₁ := h₁.length_le
  simp only [Goal.base, Goal.least, List.length_cons] at l₁ hf
  obtain ⟨fuel, rfl⟩ : ∃ f, fuel = f + 1 := ⟨fuel - 1, by omega⟩
  show (Parser.statement _).Yields p _
  rw [Parser.statement]
  refine .bind ((ih₁ p fuel hp (by simp only [Goal.base, List.length_cons]; omega)).mono ?_)
  rintro m q ⟨hm, hq⟩
  exact .bind (yields_accept hq hu rfl fun q₁ hq₁ => Reading.yields_pure ⟨hm, hq₁⟩)

theorem finds_unterminated (h₁ : Derives (.expression 0) ts [n] (u :: ts₁))
    (hu : u.kind ≠ .semicolon) (ih₁ : Finds (.expression 0) ts [n] (u :: ts₁)) :
    Finds .statement ts [n] (u :: ts₁) := by
  intro p fuel hp hf
  have l₁ := h₁.length_le
  simp only [Goal.base, Goal.least, List.length_cons] at l₁ hf
  obtain ⟨fuel, rfl⟩ : ∃ f, fuel = f + 1 := ⟨fuel - 1, by omega⟩
  show (Parser.statement _).Yields p _
  rw [Parser.statement]
  refine .bind ((ih₁ p fuel hp (by simp only [Goal.base, List.length_cons]; omega)).mono ?_)
  rintro m q ⟨hm, hq⟩
  exact .bind (yields_decline hq hu (Reading.yields_pure ⟨hm, hq⟩))

theorem finds_closed (hk : k.isLast = false) (ht : t.kind = k) :
    Finds (.statements (some k)) (t :: ts) [] ts := by
  intro p fuel hp hf
  simp only [Goal.base, List.length_cons] at hf
  obtain ⟨fuel, rfl⟩ : ∃ f, fuel = f + 1 := ⟨fuel - 1, by omega⟩
  show (Parser.statements _ _).Yields p _
  unfold Parser.statements
  refine .bind (yields_hasFailed ?_)
  rw [hp.failed]
  exact .bind (yields_accept hp ht hk fun q hq => Reading.yields_pure ⟨rfl, hq⟩)

theorem finds_ended (ht : t.kind = .endOfInput) :
    Finds (.statements none) (t :: ts) [] (t :: ts) := by
  intro p fuel hp hf
  simp only [Goal.base] at hf
  obtain ⟨fuel, rfl⟩ : ∃ f, fuel = f + 1 := ⟨fuel - 1, by omega⟩
  show (Parser.statements _ _).Yields p _
  unfold Parser.statements
  refine .bind (yields_hasFailed ?_)
  rw [hp.failed]
  refine .bind (.bind (yields_kind (Reading.yields_pure ?_)))
  rw [hp.kind, ht]
  exact Reading.yields_pure ⟨rfl, hp⟩

theorem finds_statements {closing : Option Token.Kind} (ht : t.kind ≠ closing.getD .endOfInput)
    (h₁ : Derives .statement (t :: ts) [n] ts₁) (h₂ : Derives (.statements closing) ts₁ ss ts₂)
    (ih₁ : Finds .statement (t :: ts) [n] ts₁) (ih₂ : Finds (.statements closing) ts₁ ss ts₂) :
    Finds (.statements closing) (t :: ts) (n :: ss) ts₂ := by
  intro p fuel hp hf
  have l₁ := h₁.statement_lt
  have l₂ := h₂.length_le
  simp only [Goal.base, Goal.least, List.length_cons] at l₁ l₂ hf
  obtain ⟨fuel, rfl⟩ : ∃ f, fuel = f + 1 := ⟨fuel - 1, by omega⟩
  show (Parser.statements _ _).Yields p _
  unfold Parser.statements
  refine .bind (yields_hasFailed ?_)
  rw [hp.failed]
  have next : Reading.Yields (do
      let s ← Parser.statement fuel
      return s :: (← Parser.statements fuel closing)) p fun ns q =>
        shapes ns = n :: ss ∧ Stands q ts₂ := by
    refine .bind ((ih₁ p fuel hp (by simp only [Goal.base, List.length_cons]; omega)).mono ?_)
    rintro m q ⟨hm, hq⟩
    refine .bind ((ih₂ q fuel hq (by simp only [Goal.base]; omega)).mono ?_)
    rintro ms q₁ ⟨hms, hq₁⟩
    refine Reading.yields_pure ⟨?_, hq₁⟩
    rw [shapes, hms, (List.cons.inj hm).1]
  cases closing with
  | some k => exact .bind (yields_decline hp ht next)
  | none =>
    refine .bind (.bind (yields_kind (Reading.yields_pure ?_)))
    rw [hp.kind, show t.kind.isEndOfInput = false from beq_eq_false_iff_ne.2 ht]
    exact next

end Productions

/-- **The readers find what the grammar derives.** -/
theorem realises {g : Goal} {ns : List Node} (h : Derives g ts ns rest) : Finds g ts ns rest := by
  induction h with
  | expression ht h₁ h₂ ih₁ ih₂ => exact finds_expression ht h₁ h₂ ih₁ ih₂
  | stop hc => exact finds_stop hc
  | more hlt hc h₁ h₂ ih₁ ih₂ => exact finds_more hlt hc h₁ h₂ ih₁ ih₂
  | binary ht h₁ ih₁ => exact finds_binary ht h₁ ih₁
  | member ht hu => exact finds_member ht hu
  | index ht h₁ hu ih₁ => exact finds_index ht h₁ hu ih₁
  | call ht h₁ ih₁ => exact finds_call ht h₁ ih₁
  | ternary ht h₁ hu h₂ ih₁ ih₂ => exact finds_ternary ht h₁ hu h₂ ih₁ ih₂
  | assign ht hl h₁ ih₁ => exact finds_assign ht hl h₁ ih₁
  | compound ht hl h₁ ih₁ => exact finds_compound ht hl h₁ ih₁
  | postfixed ht hl => exact finds_postfixed ht hl
  | noArguments ht => exact finds_noArguments ht
  | someArguments ht h₁ hu ih₁ => exact finds_someArguments ht h₁ hu ih₁
  | lastArgument h₁ hu ih₁ => exact finds_lastArgument h₁ hu ih₁
  | nextArgument h₁ hu h₂ ih₁ ih₂ => exact finds_nextArgument h₁ hu h₂ ih₁ ih₂
  | number ht => exact finds_number ht
  | string ht => exact finds_string ht
  | prefixed ht h₁ hn ih₁ => exact finds_prefixed ht h₁ hn ih₁
  | unary ht h₁ ih₁ => exact finds_unary ht h₁ ih₁
  | parens ht h₁ hu ih₁ => exact finds_parens ht h₁ hu ih₁
  | braces ht h₁ ih₁ => exact finds_braces ht h₁ ih₁
  | nop ht => exact finds_nop ht
  | constant ht hv => exact finds_leaf ht (fun _ _ => named_constant hv) fun _ => rfl
  | name ht hv hs => exact finds_name ht hv hs
  | breaking ht =>
    exact finds_leaf (Token.kind_of_isWord ht)
      (fun _ _ => by rw [Token.text_of_isWord ht, named_break]) fun _ => rfl
  | continuing ht =>
    exact finds_leaf (Token.kind_of_isWord ht)
      (fun _ _ => by rw [Token.text_of_isWord ht, named_continue]) fun _ => rfl
  | bareReturn ht hu => exact finds_bareReturn ht hu
  | giveBack ht hu h₁ ih₁ => exact finds_giveBack ht hu h₁ ih₁
  | guarded ht h₁ h₂ hu ih₁ ih₂ => exact finds_guarded ht h₁ h₂ hu ih₁ ih₂
  | choice ht h₁ h₂ hu h₃ ih₁ ih₂ ih₃ => exact finds_choice ht h₁ h₂ hu h₃ ih₁ ih₂ ih₃
  | whileLoop ht h₁ h₂ ih₁ ih₂ => exact finds_whileLoop ht h₁ h₂ ih₁ ih₂
  | doLoop ht h₁ hu h₂ ih₁ ih₂ => exact finds_doLoop ht h₁ hu h₂ ih₁ ih₂
  | condition ht h₁ hu ih₁ => exact finds_condition ht h₁ hu ih₁
  | terminated h₁ hu ih₁ => exact finds_terminated h₁ hu ih₁
  | unterminated h₁ hu ih₁ => exact finds_unterminated h₁ hu ih₁
  | closed hk ht => exact finds_closed hk ht
  | ended ht => exact finds_ended ht
  | statements ht h₁ h₂ ih₁ ih₂ => exact finds_statements ht h₁ h₂ ih₁ ih₂

end Parser

end Steppable
