import Steppable.Proofs.Parser.Derivation
import Steppable.Proofs.Parser.Errors
import Steppable.Proofs.Token.Lines
import Steppable.Proofs.Tree.Shape

/-!
# What is read can be derived

Where a source without declarations has no error, every reader of the grammar reads what the grammar
derives from the tokens ahead of it (`recognises`). Whether an error is noted is known only at the
end, so each reader is described under the condition that none is: `Keeps`.
-/

namespace Steppable

/-! ## The tokens ahead -/

namespace Token

/-- Whether the token begins a declaration. -/
def declares (t : Token) : Bool :=
  t.isWord "var" || t.isWord "function"

/-- Whether no token begins a declaration. After a dot, `var` and `function` are names of members. -/
def undeclaring (afterDot : Bool) : List Token → Bool
  | [] => true
  | t :: ts => (afterDot || !t.declares) && undeclaring (t.kind == .dot) ts

end Token

/-- The tokens from the current one on, without their places. -/
def Cursor.outlook (c : Cursor) : List Token :=
  (c.current :: c.ahead).map Token.bare

theorem Cursor.outlook_forward {c : Cursor} (h : Token.Proper c.outlook)
    (hc : c.current.kind.isLast = false) : c.outlook = c.current.bare :: c.forward.outlook := by
  have hne := (Token.Proper.tail h hc).ne_nil
  unfold forward atLast
  rw [hc]
  cases ha : c.ahead with
  | nil => simp [ha] at hne
  | cons t ts => simp [outlook, ha]

/-- No scope declares anything. -/
structure Scope.Empty (s : Scope) : Prop where
  unbound : ∀ x, s.find? x = none
  levels : ∀ ds ∈ s.levels, ds = []

theorem Scope.Empty.opened {s : Scope} (h : s.Empty) : s.opened.Empty :=
  ⟨h.unbound, fun _ hd => (List.mem_cons.1 hd).elim id (h.levels _)⟩

theorem Scope.Empty.close {s t : Scope} {ds : List Declaration} (h : s.Empty)
    (hc : s.close = .ok (ds, t)) : ds = [] ∧ t.Empty := by
  unfold Scope.close at hc
  split at hc
  · cases hc
  · rename_i ds' hl
    obtain rfl : ds' = [] := h.levels ds' (by rw [hl]; simp)
    split at hc
    · cases hc
    · obtain ⟨rfl, rfl⟩ := Prod.mk.inj (Except.ok.inj hc)
      exact ⟨rfl, h.unbound, by simp⟩
  · rename_i ds' outer _ hl
    obtain rfl : ds' = [] := h.levels ds' (by rw [hl]; simp)
    obtain ⟨rfl, rfl⟩ := Prod.mk.inj (Except.ok.inj hc)
    exact ⟨rfl, h.unbound, fun ds hd => h.levels ds (by rw [hl]; exact List.mem_cons_of_mem _ hd)⟩

theorem Scope.Empty.closeTo {s : Scope} (h : s.Empty) (depth : Nat) : (s.closeTo depth).Empty := by
  have down : ∀ fuel (s : Scope), s.Empty → (Scope.closeDown depth fuel s).Empty := by
    intro fuel
    induction fuel with
    | zero => exact fun _ h => h
    | succ fuel ih =>
      intro s h
      unfold Scope.closeDown
      split
      · exact h
      · split
        · rename_i hc
          exact ih _ (h.close hc).2
        · exact h
  exact down _ s h

namespace Parser

open Reading Attempt Node

variable {p q r : Parser} {n : Node} {k : Token.Kind} {Φ Ψ : Prop}

def outlook (p : Parser) : List Token :=
  p.cursor.outlook

/-- Nothing has been declared and nothing ahead declares something. -/
structure Undeclared (ts : List Token) (s : Scope) : Prop where
  proper : Token.Proper ts
  ahead : Token.undeclaring false ts = true
  scope : s.Empty

/-- The parser stands where no declaration is near. -/
def Ready (p : Parser) : Prop :=
  Undeclared p.outlook p.scope

/-- If no error is noted in `q`, none was noted in `p`, and if `p` was ready, `q` is and `Φ` holds. -/
def Keeps (p q : Parser) (Φ : Prop) : Prop :=
  q.failed = false → p.failed = false ∧ (p.Ready → q.Ready ∧ Φ)

theorem Keeps.refl (h : Φ) : Keeps p p Φ := fun hf => ⟨hf, fun hr => ⟨hr, h⟩⟩

theorem Keeps.trans (h : Keeps p q Φ) (h' : Keeps q r Ψ) : Keeps p r (Φ ∧ Ψ) := by
  intro hf
  obtain ⟨hq, hr⟩ := h' hf
  obtain ⟨hp, hq'⟩ := h hq
  refine ⟨hp, fun hready => ?_⟩
  obtain ⟨hq₁, hΦ⟩ := hq' hready
  obtain ⟨hr₁, hΨ⟩ := hr hq₁
  exact ⟨hr₁, hΦ, hΨ⟩

theorem Keeps.mono (h : Keeps p q Φ) (hΦ : Φ → Ψ) : Keeps p q Ψ := fun hf =>
  ⟨(h hf).1, fun hr => ⟨((h hf).2 hr).1, hΦ ((h hf).2 hr).2⟩⟩

theorem Ready.forward (h : p.Ready) (hl : p.cursor.current.kind.isLast = false)
    (hd : p.cursor.current.kind ≠ .dot) : Ready { p with cursor := p.cursor.forward } := by
  have ho := Cursor.outlook_forward h.proper hl
  have hp := h.proper
  have ha := h.ahead
  rw [outlook, ho] at hp ha
  refine ⟨hp.tail hl, ?_, h.scope⟩
  rw [Token.undeclaring, Bool.and_eq_true] at ha
  rw [← ha.2]
  have : (p.cursor.current.bare.kind == Token.Kind.dot) = false := by
    simpa [Token.bare] using hd
  rw [this]
  rfl

/-- The current token of `p` is `t`, and `q` is behind it. -/
def Passed (t : Token) (p q : Parser) : Prop :=
  p.outlook = t :: q.outlook

theorem keeps_forward (hl : p.cursor.current.kind.isLast = false)
    (hd : p.cursor.current.kind ≠ .dot) :
    Keeps p { p with cursor := p.cursor.forward }
      (Passed p.cursor.current.bare p { p with cursor := p.cursor.forward }) := fun hf =>
  ⟨hf, fun hr => ⟨hr.forward hl hd, Cursor.outlook_forward hr.proper hl⟩⟩

/-! ## Steps of readers -/

section Steps

variable {E Q : Node → Parser → Prop} {α : Type}

theorem ensures_and {x : Reading α} {Q Q' : α → Parser → Prop} (h : x.Ensures p Q)
    (h' : x.Ensures p Q') : x.Ensures p fun a q => Q a q ∧ Q' a q :=
  fun a q hx => ⟨h a q hx, h' a q hx⟩

theorem ensures_current {Q : Token.Kind → Parser → Prop} (h : Q p.cursor.current.kind p) :
    kind.Ensures p Q :=
  .bind (ensures_get (ensures_pure h))

theorem keeps_next {Q : PUnit → Parser → Prop} (hk : p.cursor.current.kind = k)
    (hl : k.isLast = false) (hd : k ≠ .dot)
    (hQ : ∀ q, Keeps p q (Passed p.cursor.current.bare p q) → Q ⟨⟩ q) : forward.Ensures p Q :=
  ensures_modify (hQ _ (keeps_forward (by rw [hk]; exact hl) (by rw [hk]; exact hd)))

theorem keeps_accept {Q : Bool → Parser → Prop} (hl : k.isLast = false) (hd : k ≠ .dot)
    (ht : ∀ q, Keeps p q (∃ t, t.kind = k ∧ Passed t p q) → Q true q)
    (hf : (∀ t ts, p.outlook = t :: ts → t.kind ≠ k) → Q false p) : (accept k).Ensures p Q := by
  refine ensures_modifyGet ?_
  by_cases hk : p.cursor.current.kind = k
  · rw [show p.cursor.accept k = (true, p.cursor.forward) from if_pos hk]
    exact ht _ ((keeps_forward (by rw [hk]; exact hl) (by rw [hk]; exact hd)).mono fun h =>
      ⟨p.cursor.current.bare, hk, h⟩)
  · rw [show p.cursor.accept k = (false, p.cursor) from if_neg hk]
    refine hf fun t ts ho => ?_
    obtain ⟨rfl, -⟩ := List.cons.inj ho
    exact hk

theorem keeps_acceptName {s : String} {Q : Bool → Parser → Prop}
    (ht : ∀ q, Keeps p q (∃ t, t.isWord s = true ∧ Passed t p q) → Q true q)
    (hf : (∀ t ts, p.outlook = t :: ts → t.isWord s = false) → Q false p) :
    (acceptName s).Ensures p Q := by
  refine ensures_modifyGet ?_
  by_cases hw : p.cursor.isNamed s = true
  · rw [show p.cursor.acceptName s = (true, p.cursor.forward) from if_pos hw]
    have hk : p.cursor.current.kind = .identifier := Token.kind_of_isWord hw
    exact ht _ ((keeps_forward (by rw [hk]; rfl) (by rw [hk]; simp)).mono fun h =>
      ⟨p.cursor.current.bare, hw, h⟩)
  · rw [show p.cursor.acceptName s = (false, p.cursor) from if_neg hw]
    refine hf fun t ts ho => ?_
    obtain ⟨rfl, -⟩ := List.cons.inj ho
    exact Bool.eq_false_iff.2 hw

theorem keeps_expect {Q : PUnit → Parser → Prop} (hl : k.isLast = false) (hd : k ≠ .dot)
    (hQ : ∀ q, Keeps p q (∃ t, t.kind = k ∧ Passed t p q) → Q ⟨⟩ q) :
    (expect k).Ensures p (fun _ q => q.failed = true) Q := by
  refine .bind (ensures_lift (keeps_accept hl hd (fun q hq => ?_) fun _ => ?_))
  · exact Attempt.ensures_pure (hQ q hq)
  · exact ensures_fail (tells_unexpected.mono fun _ _ hn => hn.1)

/-- The name of a member may be any word. -/
theorem keeps_member {β : Type} {what : String} {Q : β → Parser → Prop} {f : String → Attempt β}
    (hk : p.cursor.current.kind = .dot)
    (hQ : ∀ s q, Keeps p q (∃ t u, t.kind = .dot ∧ u.kind = .identifier ∧ u.text = s ∧
      p.outlook = t :: u :: q.outlook) → (f s).Ensures q (fun _ q => q.failed = true) Q) :
    Attempt.Ensures (do forward; f (← takeNameOr what)) p (fun _ q => q.failed = true) Q := by
  refine .bind (ensures_lift (ensures_modify ?_))
  refine .bind (.bind (ensures_lift (ensures_modifyGet ?_)))
  have hl : p.cursor.current.kind.isLast = false := by rw [hk]; rfl
  by_cases hu : p.cursor.forward.current.kind.isIdentifier = true
  · rw [show p.cursor.forward.takeText .identifier =
      (some p.cursor.forward.current.text, p.cursor.forward.forward) from if_pos hu]
    refine Attempt.ensures_pure (hQ _ _ fun hf => ⟨hf, fun hr => ?_⟩)
    have hu' := Token.kind_of_isIdentifier hu
    have ho := Cursor.outlook_forward hr.proper hl
    have hp := hr.proper
    have ha := hr.ahead
    rw [outlook, ho] at hp ha
    have ho' := Cursor.outlook_forward (hp.tail hl) (by rw [hu']; rfl)
    have hp' := hp.tail hl
    rw [ho'] at hp' ha
    refine ⟨⟨hp'.tail (by rw [Token.bare, hu']; rfl), ?_, hr.scope⟩,
      p.cursor.current.bare, p.cursor.forward.current.bare, hk, hu', rfl, ?_⟩
    · simp only [Token.undeclaring, Token.bare, hk, hu', Bool.and_eq_true] at ha
      exact ha.2.2
    · rw [outlook, ho, ho']
      rfl
  · rw [show p.cursor.forward.takeText .identifier = (none, p.cursor.forward) from if_neg hu]
    exact ensures_fail (tells_unexpected.mono fun _ _ hn => hn.1)

/-- A node that is made at the end, of which only the shape matters. -/
theorem keeps_spanned {start : Location} {build : Tag → Node} {q : Parser}
    (h : Keeps p q (∀ t r, r.outlook = q.outlook → Q (build t) r)) :
    Attempt.Ensures (do Reading.node (← spanFrom start) build) q E fun n r => Keeps p r (Q n r) :=
  .bind (ensures_lift (ensures_spanFrom fun _ => ensures_lift (ensures_node
    ((show Keeps p { q with next := q.next + 1 } _ from h).mono fun hQ => hQ _ _ rfl))))

end Steps

/-- Without locals the statements of a block are grouped. -/
theorem keeps_blockOf {place : Location} {ss : List Node} {locals : List Declaration}
    (h : Keeps p q (locals = [] ∧ Φ)) :
    (blockOf place ss locals).Ensures q fun n r =>
      r.outlook = q.outlook ∧ Keeps p r (n.shape = grouped (shapes ss) ∧ Φ) := by
  unfold blockOf
  split
  · exact ensures_pure ⟨rfl, h.mono fun hΦ => ⟨rfl, hΦ.2⟩⟩
  · rename_i hne
    refine ensures_node ⟨rfl, ?_⟩
    refine (show Keeps p { q with next := q.next + 1 } _ from h).mono ?_
    rintro ⟨rfl, hΦ⟩
    refine ⟨?_, hΦ⟩
    cases ss with
    | nil => rfl
    | cons s ss =>
      cases ss with
      | nil => exact (hne s rfl rfl).elim
      | cons s' ss => rfl

theorem next_of_unary {op : UnaryOp} (h : k.unary? = some op) : k.isLast = false ∧ k ≠ .dot := by
  unfold Token.Kind.unary? at h
  split at h <;> simp_all <;> rfl

/-! ## The grammar -/

/-- What was read from `p` on is `ns`, as the goal asks. -/
abbrev Answers (g : Goal) (p : Parser) (ns : List Node) (q : Parser) : Prop :=
  Keeps p q (Derives g p.outlook (shapes ns) q.outlook)

/-- With the given fuel every reader of the grammar reads what the grammar derives. -/
structure Recognises (fuel : Nat) : Prop where
  expression : ∀ p power, (expression fuel power).Ensures p fun n q =>
    Answers (.expression power) p [n] q
  operations : ∀ p power left, (operations fuel power left).Ensures p fun n q =>
    Answers (.operations power left.shape) p [n] q
  operand : ∀ p power, (operand fuel power).Ensures p (fun _ q => q.failed = true) fun n q =>
    Answers (.operand power) p [n] q
  operation : ∀ p left, (operation fuel left).Ensures p (fun _ q => q.failed = true) fun n q =>
    Answers (.operation left.shape) p [n] q
  arguments : ∀ p, (arguments fuel).Ensures p (fun _ q => q.failed = true) fun as q =>
    Answers .arguments p as q
  argumentList : ∀ p, (argumentList fuel).Ensures p (fun _ q => q.failed = true) fun as q =>
    Answers .argumentList p as q
  named : ∀ p power place, p.cursor.current.kind = .identifier →
    (named fuel place p.cursor.current.text).Ensures p (fun _ q => q.failed = true) fun n q =>
      Answers (.operand power) p [n] q
  condition : ∀ p, (condition fuel).Ensures p (fun _ q => q.failed = true) fun n q =>
    Answers .condition p [n] q
  ifStatement : ∀ p power place, p.cursor.current.isWord "if" = true →
    (ifStatement fuel place).Ensures p (fun _ q => q.failed = true) fun n q =>
      Answers (.operand power) p [n] q
  whileStatement : ∀ p power place, p.cursor.current.isWord "while" = true →
    (whileStatement fuel place).Ensures p (fun _ q => q.failed = true) fun n q =>
      Answers (.operand power) p [n] q
  doStatement : ∀ p power place, p.cursor.current.isWord "do" = true →
    (doStatement fuel place).Ensures p (fun _ q => q.failed = true) fun n q =>
      Answers (.operand power) p [n] q
  returnStatement : ∀ p power place, p.cursor.current.isWord "return" = true →
    (returnStatement fuel place).Ensures p (fun _ q => q.failed = true) fun n q =>
      Answers (.operand power) p [n] q
  block : ∀ p place, (block fuel place).Ensures p fun n q =>
    Keeps p q (∃ ss, n.shape = grouped ss ∧
      Derives (.statements (some .closeCurly)) p.outlook ss q.outlook)
  statement : ∀ p, (statement fuel).Ensures p fun n q => Answers .statement p [n] q
  statements : ∀ p closing, closing.all (fun k => !k.isLast && k != .dot) = true →
    (statements fuel closing).Ensures p fun ns q => Answers (.statements closing) p ns q

theorem recognises_zero : Recognises 0 where
  expression _ _ := ensures_outOfFuel
  operations _ _ _ := ensures_outOfFuel
  operand _ _ := ensures_lift ensures_outOfFuel
  operation _ _ := ensures_lift ensures_outOfFuel
  arguments _ := ensures_lift ensures_outOfFuel
  argumentList _ := ensures_lift ensures_outOfFuel
  named _ _ _ _ := ensures_lift ensures_outOfFuel
  condition _ := ensures_lift ensures_outOfFuel
  ifStatement _ _ _ _ := ensures_lift ensures_outOfFuel
  whileStatement _ _ _ _ := ensures_lift ensures_outOfFuel
  doStatement _ _ _ _ := ensures_lift ensures_outOfFuel
  returnStatement _ _ _ _ := ensures_lift ensures_outOfFuel
  block _ _ := ensures_outOfFuel
  statement _ := ensures_outOfFuel
  statements _ _ _ := ensures_outOfFuel

namespace Recognises

variable {fuel power : Nat} {left : Node} {place : Location} (ih : Recognises fuel)
include ih

/-! ### Expressions -/

theorem expression_succ (p : Parser) :
    (Parser.expression (fuel + 1) power).Ensures p fun n q =>
      Answers (.expression power) p [n] q := by
  rw [Parser.expression]
  refine .bind (ensures_current ?_)
  split
  · refine tells_unexpected.mono fun n q hn hf => ?_
    simp [hn.1] at hf
  · rename_i hl
    refine .bind (ensures_orError ((ih.operand p power).mono (fun n q hn => ?_) fun n q hn => ?_))
    · refine (ih.operations q power n).mono fun m r hr hf => ?_
      simp [(hr hf).1] at hn
    · refine (ih.operations q power n).mono fun m r hr => (hn.trans hr).mono ?_
      rintro ⟨h₁, h₂⟩
      exact .expression (Bool.eq_false_iff.2 hl) h₁ h₂

theorem operations_succ (p : Parser) :
    (Parser.operations (fuel + 1) power left).Ensures p fun n q =>
      Answers (.operations power left.shape) p [n] q := by
  rw [Parser.operations]
  refine .bind (ensures_current (.bind (ensures_hasFailed ?_)))
  split
  · rename_i hc
    refine .bind (ensures_orError ((ih.operation p left).mono (fun n q hn => ?_) fun n q hn => ?_))
    · refine (ih.operations q power n).mono fun m r hr hf => ?_
      simp [(hr hf).1] at hn
    · refine (ih.operations q power n).mono fun m r hr => (hn.trans hr).mono ?_
      rintro ⟨h₁, h₂⟩
      simp only [Bool.and_eq_true, decide_eq_true_eq] at hc
      exact .more hc.1.2 hc.2 h₁ h₂
  · rename_i hc
    intro n q hx
    obtain ⟨rfl, rfl⟩ := Prod.mk.inj (Option.some.inj hx)
    refine fun hf => ⟨hf, fun hr => ⟨hr, .stop fun hc' => hc ?_⟩⟩
    simp only [hf, Bool.not_false, Bool.true_and, Bool.and_eq_true, decide_eq_true_eq]
    exact hc'

/-- An expression that may not be an error node. -/
theorem valid_expression {α : Type} {Q : α → Parser → Prop} {f : Node → Attempt α}
    (hQ : ∀ n r, Answers (.expression power) q [n] r →
      (f n).Ensures r (fun _ q => q.failed = true) Q) :
    Attempt.Ensures (do f (← valid (← Parser.expression fuel power))) q
      (fun _ q => q.failed = true) Q :=
  .bind (ensures_lift ((ensures_and (ih.expression q power) ((candid fuel).expression q power)).mono
    fun n r hr => .bind (ensures_valid (fun _ => hQ n r hr.1) fun hn => (hr.2.broken hn).1)))

theorem operation_succ (p : Parser) :
    (Parser.operation (fuel + 1) left).Ensures p (fun _ q => q.failed = true) fun n q =>
      Answers (.operation left.shape) p [n] q := by
  rw [Parser.operation]
  refine .bind (ensures_lift (ensures_current ?_))
  have assigned : ∀ {α : Type} {Q : α → Parser → Prop} {x : Attempt α} {message : String},
      (left.isAssignable = true → x.Ensures p (fun _ q => q.failed = true) Q) →
      (if left.isAssignable then x else fail (errorAt left.place message)).Ensures p
        (fun _ q => q.failed = true) Q := by
    intro α Q x message hx
    split
    · rename_i ha
      exact hx ha
    · exact ensures_fail (tells_errorAt.mono fun _ _ hn => hn.1)
  have adjusted : (p.cursor.current.kind = .increment ∨ p.cursor.current.kind = .decrement) →
      Attempt.Ensures (do
        if left.isAssignable then
          forward
          Reading.node (← spanFrom left.place) (.adjust · ⟨p.cursor.current.kind = .increment, false⟩ left)
        else fail (errorAt left.place notAdjustable)) p (fun _ q => q.failed = true) fun n q =>
          Answers (.operation left.shape) p [n] q := by
    intro hk
    refine assigned fun ha => ?_
    have hn : forward.Ensures p fun _ q => Keeps p q (Passed p.cursor.current.bare p q) := by
      rcases hk with hk | hk
      · exact keeps_next hk rfl (by simp) fun q hq => hq
      · exact keeps_next hk rfl (by simp) fun q hq => hq
    refine .bind (ensures_lift (hn.mono fun _ q hq => keeps_spanned (hq.mono fun hp t r hr => ?_)))
    rw [hp, hr]
    exact .postfixed hk ((isAssignable_shape left).trans ha)
  split
  · rename_i op hk
    refine .bind (ensures_lift (keeps_next hk rfl (by simp) fun q hq => ?_))
    refine .bind (ensures_lift ((ih.expression q _).mono fun n q₁ hr => ensures_lift (ensures_node ?_)))
    refine (show Keeps p { q₁ with next := q₁.next + 1 } _ from hq.trans hr).mono ?_
    rintro ⟨hp, h⟩
    rw [hp]
    exact .binary hk h
  · rename_i hk
    refine keeps_member hk fun s q hq => keeps_spanned (hq.mono ?_)
    rintro ⟨t, u, ht, hu, rfl, hp⟩ tag r hr
    rw [hp, hr]
    exact .member ht hu
  · rename_i hk
    refine .bind (ensures_lift (keeps_next hk rfl (by simp) fun q hq => ?_))
    refine ih.valid_expression fun i q₁ h₁ => ?_
    refine .bind (keeps_expect rfl (by simp) fun q₂ h₂ => ?_)
    refine keeps_spanned ((hq.trans (h₁.trans h₂)).mono ?_)
    rintro ⟨hp, h, u, hu, hp₁⟩ t r hr
    rw [hp₁] at h
    rw [hp, hr]
    exact .index hk h hu
  · rename_i hk
    refine .bind (ensures_lift (keeps_next hk rfl (by simp) fun q hq => ?_))
    refine .bind ((ih.arguments q).mono (fun _ _ hn => hn) fun as q₁ h₁ => ?_)
    refine keeps_spanned ((hq.trans h₁).mono ?_)
    rintro ⟨hp, h⟩ t r hr
    rw [hp, hr]
    exact .call hk h
  · rename_i hk
    refine .bind (ensures_lift (keeps_next hk rfl (by simp) fun q hq => ?_))
    refine ih.valid_expression fun a q₁ h₁ => ?_
    refine .bind (keeps_expect rfl (by simp) fun q₂ h₂ => ?_)
    refine .bind (ensures_lift ((ih.expression q₂ _).mono fun b q₃ h₃ => ensures_lift (ensures_node ?_)))
    refine (show Keeps p { q₃ with next := q₃.next + 1 } _ from
      hq.trans (h₁.trans (h₂.trans h₃))).mono ?_
    rintro ⟨hp, ha, ⟨u, hu, hp₁⟩, hb⟩
    rw [hp₁] at ha
    rw [hp]
    exact .ternary hk ha hu hb
  · rename_i hk
    refine assigned fun ha => ?_
    refine .bind (ensures_lift (keeps_next hk rfl (by simp) fun q hq => ?_))
    refine .bind (ensures_lift ((ih.expression q _).mono fun v q₁ h₁ => ensures_lift (ensures_node ?_)))
    refine (show Keeps p { q₁ with next := q₁.next + 1 } _ from hq.trans h₁).mono ?_
    rintro ⟨hp, h⟩
    rw [hp]
    exact .assign hk ((isAssignable_shape left).trans ha) h
  · rename_i op hk
    refine assigned fun ha => ?_
    refine .bind (ensures_lift (keeps_next hk rfl (by simp) fun q hq => ?_))
    refine .bind (ensures_lift ((ih.expression q _).mono fun v q₁ h₁ => ?_))
    refine .bind (ensures_lift (ensures_node (ensures_lift (ensures_node ?_))))
    refine (show Keeps p { q₁ with next := q₁.next + 1 + 1 } _ from hq.trans h₁).mono ?_
    rintro ⟨hp, h⟩
    rw [hp]
    exact .compound hk ((isAssignable_shape left).trans ha) h
  · rename_i hk
    exact adjusted (.inl hk)
  · rename_i hk
    exact adjusted (.inr hk)
  · exact ensures_fail (tells_unexpected.mono fun _ _ hn => hn.1)

theorem arguments_succ (p : Parser) :
    (Parser.arguments (fuel + 1)).Ensures p (fun _ q => q.failed = true) fun as q =>
      Answers .arguments p as q := by
  rw [Parser.arguments]
  refine .bind (ensures_lift (keeps_accept rfl (by simp) (fun q hq => ?_) fun hne => ?_))
  · refine Attempt.ensures_pure (hq.mono ?_)
    rintro ⟨t, ht, hp⟩
    rw [hp]
    exact .noArguments ht
  · refine .bind ((ih.argumentList p).mono (fun _ _ hn => hn) fun as q h₁ => ?_)
    refine .bind (keeps_expect rfl (by simp) fun q₁ h₂ => Attempt.ensures_pure ((h₁.trans h₂).mono ?_))
    rintro ⟨h, u, hu, hp⟩
    rw [hp] at h
    exact .someArguments (hne _ _ rfl) h hu

theorem argumentList_succ (p : Parser) :
    (Parser.argumentList (fuel + 1)).Ensures p (fun _ q => q.failed = true) fun as q =>
      Answers .argumentList p as q := by
  rw [Parser.argumentList]
  refine ih.valid_expression fun a q ha => ?_
  refine .bind (ensures_lift (keeps_accept rfl (by simp) (fun q₁ h₁ => ?_) fun hne => ?_))
  · refine .bind ((ih.argumentList q₁).mono (fun _ _ hn => hn) fun as q₂ h₂ => ?_)
    refine Attempt.ensures_pure ((ha.trans (h₁.trans h₂)).mono ?_)
    rintro ⟨h, ⟨u, hu, hp⟩, has⟩
    rw [hp] at h
    exact .nextArgument h hu has
  · exact Attempt.ensures_pure (ha.mono fun h => .lastArgument h (hne _ _ rfl))

theorem operand_succ (p : Parser) :
    (Parser.operand (fuel + 1) power).Ensures p (fun _ q => q.failed = true) fun n q =>
      Answers (.operand power) p [n] q := by
  rw [Parser.operand]
  refine .bind (ensures_lift (ensures_here fun place => .bind (ensures_get ?_)))
  dsimp only
  have adjusted : (p.cursor.current.kind = .increment ∨ p.cursor.current.kind = .decrement) →
      Attempt.Ensures (do
        forward
        let n ← valid (← Parser.expression fuel unaryPower)
        if n.isAssignable then
          Reading.node (← spanFrom place) (.adjust · ⟨p.cursor.current.kind = .increment, true⟩ n)
        else fail (errorAt n.place notAdjustable)) p (fun _ q => q.failed = true) fun n q =>
          Answers (.operand power) p [n] q := by
    intro hk
    have hn : forward.Ensures p fun _ q => Keeps p q (Passed p.cursor.current.bare p q) := by
      rcases hk with hk | hk
      · exact keeps_next hk rfl (by simp) fun q hq => hq
      · exact keeps_next hk rfl (by simp) fun q hq => hq
    refine .bind (ensures_lift (hn.mono fun _ q hq => ?_))
    refine ih.valid_expression fun n q₁ h₁ => ?_
    split
    · rename_i ha
      refine keeps_spanned ((hq.trans h₁).mono ?_)
      rintro ⟨hp, h⟩ t r hr
      rw [hp, hr]
      exact .prefixed hk h ((isAssignable_shape n).trans ha)
    · exact ensures_fail (tells_errorAt.mono fun _ _ hn => hn.1)
  split
  · rename_i form hk
    refine .bind (ensures_lift (keeps_next hk rfl (by simp) fun q hq =>
      ensures_lift (ensures_node ?_)))
    refine (show Keeps p { q with next := q.next + 1 } _ from hq).mono fun hp => ?_
    rw [hp]
    exact .number hk
  · rename_i hk
    refine .bind (ensures_lift (keeps_next hk rfl (by simp) fun q hq =>
      ensures_lift (ensures_node ?_)))
    refine (show Keeps p { q with next := q.next + 1 } _ from hq).mono fun hp => ?_
    rw [hp]
    exact .string hk
  · exact ensures_fail (tells_errorAt.mono fun _ _ hn => hn.1)
  · rename_i hk
    exact adjusted (.inl hk)
  · rename_i hk
    exact adjusted (.inr hk)
  · rename_i hk
    exact ih.named p power place hk
  · rename_i hk
    refine .bind (ensures_lift (keeps_next hk rfl (by simp) fun q hq => ?_))
    refine ih.valid_expression fun n q₁ h₁ => ?_
    refine .bind (keeps_expect rfl (by simp) fun q₂ h₂ => ?_)
    refine Attempt.ensures_pure ((hq.trans (h₁.trans h₂)).mono ?_)
    rintro ⟨hp, h, u, hu, hp₁⟩
    rw [hp₁] at h
    rw [hp]
    exact .parens hk h hu
  · rename_i hk
    refine .bind (ensures_lift (keeps_next hk rfl (by simp) fun q hq =>
      ensures_lift ((ih.block q place).mono ?_)))
    refine fun n q₁ h₁ => (hq.trans h₁).mono ?_
    rintro ⟨hp, ss, hn, h⟩
    rw [hp, shapes, hn]
    exact .braces hk h
  · split
    · rename_i op hop
      have hk := next_of_unary hop
      refine .bind (ensures_lift (keeps_next rfl hk.1 hk.2 fun q hq => ?_))
      refine .bind (ensures_lift ((ih.expression q _).mono fun n q₁ h₁ => ?_))
      refine keeps_spanned ((hq.trans h₁).mono ?_)
      rintro ⟨hp, h⟩ t r hr
      rw [hp, hr]
      exact .unary hop h
    · split
      · rename_i hs
        simp only [Bool.and_eq_true, decide_eq_true_eq] at hs
        obtain ⟨hk, rfl⟩ := hs
        refine ensures_lift (ensures_node ?_)
        exact (show Keeps p { p with next := p.next + 1 } _ from Keeps.refl (.nop hk))
      · exact ensures_fail (tells_unexpected.mono fun _ _ hn => hn.1)

/-! ### Statements -/

theorem condition_succ (p : Parser) :
    (Parser.condition (fuel + 1)).Ensures p (fun _ q => q.failed = true) fun n q =>
      Answers .condition p [n] q := by
  rw [Parser.condition]
  refine .bind (keeps_expect rfl (by simp) fun q hq => ?_)
  refine ih.valid_expression fun c q₁ h₁ => ?_
  refine .bind (keeps_expect rfl (by simp) fun q₂ h₂ => ?_)
  refine Attempt.ensures_pure ((hq.trans (h₁.trans h₂)).mono ?_)
  rintro ⟨⟨t, ht, hp⟩, h, u, hu, hp₁⟩
  rw [hp₁] at h
  rw [hp]
  exact .condition ht h hu

theorem ifStatement_succ (p : Parser) (hw : p.cursor.current.isWord "if" = true) :
    (Parser.ifStatement (fuel + 1) place).Ensures p (fun _ q => q.failed = true) fun n q =>
      Answers (.operand power) p [n] q := by
  rw [Parser.ifStatement]
  refine .bind (ensures_lift (keeps_next (Token.kind_of_isWord hw) rfl (by simp) fun q hq => ?_))
  refine .bind ((ih.condition q).mono (fun _ _ hn => hn) fun c q₁ hc => ?_)
  refine .bind (ensures_lift ((ih.statement q₁).mono fun a q₂ ha => ?_))
  have hca := hq.trans (hc.trans ha)
  -- Behind an error the word is not looked for, and nothing is promised.
  refine .bind (ensures_lift (Reading.Ensures.mono (Q := fun otherwise q₃ =>
    if otherwise then Keeps q₂ q₃ (∃ u, u.isWord "else" = true ∧ Passed u q₂ q₃)
    else Keeps q₂ q₃ (q₃.outlook = q₂.outlook ∧
      ∀ u us, q₂.outlook = u :: us → u.isWord "else" = false)) ?_ fun otherwise q₃ hx => ?_))
  · refine .bind (ensures_hasFailed ?_)
    split
    · rename_i hf
      refine ensures_pure fun hf' => ?_
      simp [hf] at hf'
    · exact keeps_acceptName (fun q₃ hx => hx) fun hne => Keeps.refl ⟨rfl, hne⟩
  · split
    · rename_i ho
      simp only [ho, if_true] at hx
      refine .bind (ensures_lift ((ih.statement q₃).mono fun b q₄ hb => ?_))
      refine keeps_spanned ((hca.trans (hx.trans hb)).mono ?_)
      rintro ⟨⟨hp, hc, ha⟩, ⟨u, hu, hp₂⟩, hb⟩ t r hr
      rw [hp₂] at ha
      rw [hp, hr]
      exact .choice hw hc ha hu hb
    · rename_i ho
      simp only [ho] at hx
      refine keeps_spanned ((hca.trans hx).mono ?_)
      rintro ⟨⟨hp, hc, ha⟩, ho₃, hne⟩ t r hr
      rw [hp, hr, ho₃]
      exact .guarded hw hc ha (hne _ _ rfl)

theorem whileStatement_succ (p : Parser) (hw : p.cursor.current.isWord "while" = true) :
    (Parser.whileStatement (fuel + 1) place).Ensures p (fun _ q => q.failed = true) fun n q =>
      Answers (.operand power) p [n] q := by
  rw [Parser.whileStatement]
  refine .bind (ensures_lift (keeps_next (Token.kind_of_isWord hw) rfl (by simp) fun q hq => ?_))
  refine .bind ((ih.condition q).mono (fun _ _ hn => hn) fun c q₁ hc => ?_)
  refine .bind (ensures_lift ((ih.statement q₁).mono fun b q₂ hb => ?_))
  refine keeps_spanned ((hq.trans (hc.trans hb)).mono ?_)
  rintro ⟨hp, hc, hb⟩ t r hr
  rw [hp, hr]
  exact .whileLoop hw hc hb

theorem doStatement_succ (p : Parser) (hw : p.cursor.current.isWord "do" = true) :
    (Parser.doStatement (fuel + 1) place).Ensures p (fun _ q => q.failed = true) fun n q =>
      Answers (.operand power) p [n] q := by
  rw [Parser.doStatement]
  refine .bind (ensures_lift (keeps_next (Token.kind_of_isWord hw) rfl (by simp) fun q hq => ?_))
  refine .bind (ensures_lift ((ensures_and (ih.statement q) ((candid fuel).statement q)).mono
    fun b q₁ hb => ?_))
  refine .bind (ensures_valid (fun _ => ?_) fun hn => (hb.2.broken hn).1)
  refine .bind (ensures_lift (keeps_acceptName (fun q₂ h₂ => ?_) fun _ => ?_))
  · refine .bind ((ih.condition q₂).mono (fun _ _ hn => hn) fun c q₃ hc => ?_)
    refine keeps_spanned ((hq.trans (hb.1.trans (h₂.trans hc))).mono ?_)
    rintro ⟨hp, hb, ⟨u, hu, hp₁⟩, hc⟩ t r hr
    rw [hp₁] at hb
    rw [hp, hr]
    exact .doLoop hw hb hu hc
  · exact ensures_fail (tells_unexpected.mono fun _ _ hn => hn.1)

theorem returnStatement_succ (p : Parser) (hw : p.cursor.current.isWord "return" = true) :
    (Parser.returnStatement (fuel + 1) place).Ensures p (fun _ q => q.failed = true) fun n q =>
      Answers (.operand power) p [n] q := by
  rw [Parser.returnStatement]
  refine .bind (ensures_lift (keeps_next (Token.kind_of_isWord hw) rfl (by simp) fun q hq => ?_))
  refine .bind (ensures_lift (ensures_current ?_))
  have bare : endsReturn q.cursor.current.kind = true →
      Attempt.Ensures (do Reading.node (← spanFrom place) (.jump · .return)) q
        (fun _ q => q.failed = true) fun n q => Answers (.operand power) p [n] q := by
    intro hu
    refine keeps_spanned (hq.mono fun hp t r hr => ?_)
    rw [hp, hr]
    exact .bareReturn hw hu
  split
  · rename_i hk
    exact bare (by rw [hk]; rfl)
  · rename_i hk
    exact bare (by rw [hk]; rfl)
  · rename_i hk
    exact bare (by rw [hk]; rfl)
  · rename_i h₁ h₂ h₃
    have hu : endsReturn q.cursor.current.kind = false := by
      unfold endsReturn
      split <;> simp_all
    refine ih.valid_expression fun v q₁ hv => ?_
    refine keeps_spanned ((hq.trans hv).mono ?_)
    rintro ⟨hp, h⟩ t r hr
    rw [hp, hr]
    exact .giveBack hw hu h

theorem statement_succ (p : Parser) :
    (Parser.statement (fuel + 1)).Ensures p fun n q => Answers .statement p [n] q := by
  rw [Parser.statement]
  refine .bind ((ih.expression p 0).mono fun n q hn => ?_)
  refine .bind (keeps_accept rfl (by simp) (fun q₁ h₁ => ?_) fun hne => ?_)
  · refine ensures_pure ((hn.trans h₁).mono ?_)
    rintro ⟨h, u, hu, hp⟩
    rw [hp] at h
    exact .terminated h hu
  · exact ensures_pure (hn.mono fun h => .unterminated h (hne _ _ rfl))

theorem statements_succ (p : Parser) (closing : Option Token.Kind)
    (hc : closing.all (fun k => !k.isLast && k != .dot) = true) :
    (Parser.statements (fuel + 1) closing).Ensures p fun ns q =>
      Answers (.statements closing) p ns q := by
  unfold Parser.statements
  refine .bind (ensures_hasFailed ?_)
  split
  · rename_i hf
    refine ensures_pure fun hf' => ?_
    simp [hf] at hf'
  · refine .bind (Reading.Ensures.mono (Q := fun closed q =>
      if closed then Answers (.statements closing) p [] q
      else q = p ∧ p.cursor.current.kind ≠ closing.getD .endOfInput) ?_ fun closed q hq => ?_)
    · cases closing with
      | some k =>
        simp only [Option.all_some, Bool.and_eq_true, Bool.not_eq_true', bne_iff_ne] at hc
        refine keeps_accept hc.1 hc.2 (fun q hq => hq.mono ?_) fun hne =>
          ⟨rfl, hne p.cursor.current.bare _ rfl⟩
        rintro ⟨t, ht, hp⟩
        rw [hp]
        exact .closed hc.1 ht
      | none =>
        refine .bind (ensures_current (ensures_pure ?_))
        split
        · rename_i hk
          exact Keeps.refl (.ended (eq_of_beq hk))
        · rename_i hk
          exact ⟨rfl, by simpa [Token.Kind.isEndOfInput] using hk⟩
    · split
      · rename_i hclosed
        simp only [hclosed, if_true] at hq
        exact ensures_pure hq
      · rename_i hclosed
        simp only [hclosed] at hq
        obtain ⟨rfl, hne⟩ := hq
        refine .bind ((ih.statement q).mono fun s q₁ h₁ => ?_)
        refine .bind ((ih.statements q₁ closing hc).mono fun ss q₂ h₂ => ensures_pure ?_)
        refine (h₁.trans h₂).mono ?_
        rintro ⟨hs, hss⟩
        exact .statements hne hs hss

/-! ### Blocks and names -/

theorem block_succ (p : Parser) :
    (Parser.block (fuel + 1) place).Ensures p fun n q =>
      Keeps p q (∃ ss, n.shape = grouped ss ∧
        Derives (.statements (some .closeCurly)) p.outlook ss q.outlook) := by
  rw [Parser.block]
  refine .bind (ensures_modify ?_)
  refine .bind ((ih.statements _ _ rfl).mono fun ss q hss => ?_)
  have hopen : Keeps p q (Derives (.statements (some .closeCurly)) p.outlook (shapes ss) q.outlook) :=
    fun hf => ⟨(hss hf).1, fun hr => (hss hf).2 ⟨hr.proper, hr.ahead, hr.scope.opened⟩⟩
  refine .bind (ensures_modifyGet ?_)
  -- Nothing was declared, so the scope that is closed has no locals.
  have closed : ∀ x : List Declaration × Parser,
      Keeps p x.2 (x.1 = [] ∧ Derives (.statements (some .closeCurly)) p.outlook (shapes ss)
        q.outlook) → x.2.outlook = q.outlook →
      Reading.Ensures (do blockOf (← spanFrom place) ss x.1) x.2 fun n r =>
        Keeps p r (∃ ss, n.shape = grouped ss ∧
          Derives (.statements (some .closeCurly)) p.outlook ss r.outlook) := by
    intro x hx ho
    refine .bind (ensures_spanFrom fun _ => (keeps_blockOf hx).mono fun n r hr => ?_)
    refine hr.2.mono fun hn => ⟨_, hn.1, ?_⟩
    rw [hr.1, ho]
    exact hn.2
  refine closed _ ?_ ?_
  · cases hcl : q.scope.close with
    | error => exact hopen.mono fun h => ⟨rfl, h⟩
    | ok x =>
      obtain ⟨ds, scope⟩ := x
      refine fun hf => ⟨(hopen hf).1, fun hr => ?_⟩
      obtain ⟨hq, h⟩ := (hopen hf).2 hr
      obtain ⟨rfl, he⟩ := hq.scope.close hcl
      exact ⟨⟨hq.proper, hq.ahead, he⟩, rfl, h⟩
  · cases q.scope.close with
    | error => rfl
    | ok x => rfl

theorem named_succ (p : Parser) (hk : p.cursor.current.kind = .identifier) :
    (Parser.named (fuel + 1) place p.cursor.current.text).Ensures p (fun _ q => q.failed = true)
      fun n q => Answers (.operand power) p [n] q := by
  have word : ∀ s, p.cursor.current.text = s → p.cursor.current.isWord s = true := by
    intro s hs
    simp [Token.isWord, Token.Kind.isIdentifier, Token.Kind.class?, hk, hs]
  have leaf : ∀ build : Tag → Node, (∀ t ts, Derives (.operand power) (p.cursor.current.bare :: ts)
      [(build t).shape] ts) → Attempt.Ensures (do forward; Reading.node place build) p
        (fun _ q => q.failed = true) fun n q => Answers (.operand power) p [n] q := by
    intro build hb
    refine .bind (ensures_lift (keeps_next hk rfl (by simp) fun q hq =>
      ensures_lift (ensures_node ?_)))
    refine (show Keeps p { q with next := q.next + 1 } _ from hq).mono fun hp => ?_
    rw [hp]
    exact hb _ _
  -- A declaration is read too, but it does not stand where the parser is ready.
  have declares : p.cursor.current.bare.declares = true →
      (Parser.named (fuel + 1) place p.cursor.current.text).Ensures p (fun _ q => q.failed = true)
        fun n q => Answers (.operand power) p [n] q := by
    intro hd
    refine ((candid (fuel + 1)).named p place _).mono (fun _ _ hn => hn.1) fun n q hn hf => ?_
    have hp : p.failed = false := by
      cases hp : p.failed with
      | false => rfl
      | true => simp [hn.2 (.inl hp)] at hf
    refine ⟨hp, fun hr => ?_⟩
    have := hr.ahead
    simp [outlook, Cursor.outlook, Token.undeclaring, hd] at this
  by_cases hd : p.cursor.current.bare.declares = true
  · exact declares hd
  unfold Parser.named
  split
  · rename_i v hv
    exact leaf _ fun t ts => .constant hk hv
  · rename_i hv
    split
    · rename_i hs
      exact ih.ifStatement p power place (word _ hs)
    · rename_i hs
      exact ih.whileStatement p power place (word _ hs)
    · rename_i hs
      exact ih.doStatement p power place (word _ hs)
    · rename_i hs
      exact (hd (Bool.or_eq_true_iff.2 (.inl (word _ hs)))).elim
    · rename_i hs
      exact (hd (Bool.or_eq_true_iff.2 (.inr (word _ hs)))).elim
    · rename_i hs
      exact leaf _ fun t ts => .breaking (word _ hs)
    · rename_i hs
      exact leaf _ fun t ts => .continuing (word _ hs)
    · rename_i hs
      exact ih.returnStatement p power place (word _ hs)
    · exact ensures_fail (tells_errorAt.mono fun _ _ hn => hn.1)
    · rename_i h₁ h₂ h₃ h₄ h₅ h₆ h₇ h₈ h₉
      have hs : p.cursor.current.text ∉ keywords := by
        simp only [keywords, List.mem_cons, List.not_mem_nil, or_false, not_or]
        exact ⟨h₁, h₂, h₃, h₄, h₅, h₆, h₇, h₈, h₉⟩
      refine .bind (ensures_lift (keeps_next hk rfl (by simp) fun q hq => ensures_lift ?_))
      unfold nameNode
      refine .bind (ensures_get ?_)
      split
      · rename_i d hfind
        refine .bind (ensures_modify (ensures_node fun hf => ⟨(hq hf).1, fun hr => ?_⟩))
        rw [((hq hf).2 hr).1.scope.unbound] at hfind
        cases hfind
      · refine ensures_node ?_
        refine (show Keeps p { q with next := q.next + 1 } _ from hq).mono fun hp => ?_
        rw [hp]
        exact .name hk hv hs

theorem succ : Recognises (fuel + 1) where
  expression p _ := ih.expression_succ p
  operations p _ _ := ih.operations_succ p
  operand p _ := ih.operand_succ p
  operation p _ := ih.operation_succ p
  arguments p := ih.arguments_succ p
  argumentList p := ih.argumentList_succ p
  named p _ _ hk := ih.named_succ p hk
  condition p := ih.condition_succ p
  ifStatement p _ _ hw := ih.ifStatement_succ p hw
  whileStatement p _ _ hw := ih.whileStatement_succ p hw
  doStatement p _ _ hw := ih.doStatement_succ p hw
  returnStatement p _ _ hw := ih.returnStatement_succ p hw
  block p _ := ih.block_succ p
  statement p := ih.statement_succ p
  statements p closing hc := ih.statements_succ p closing hc

end Recognises

/-- **Every reader of the grammar reads what the grammar derives**, where nothing is declared and no
error is noted. -/
theorem recognises (fuel : Nat) : Recognises fuel := by
  induction fuel with
  | zero => exact recognises_zero
  | succ fuel ih => exact ih.succ

end Parser

end Steppable
