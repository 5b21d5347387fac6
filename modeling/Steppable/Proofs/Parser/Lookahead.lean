import Steppable.Proofs.Parser.Derivation
import Steppable.Proofs.Token.Lines

/-!
# How far the grammar looks ahead

A derivation depends on the tokens that it takes and on the one after them, on nothing else: the
tokens behind that one can be replaced (`Derives.regrown`).

At the end of the input that one token is the end itself. Where other tokens follow instead, the
derivation stops before them all the same if they begin with a semicolon (`Derives.extends`). Only
the body of an `if` or a `while` reaches further: it takes the semicolon, and the expression around
it then sees the token after that. So the statements of two texts with a semicolon between them are
those of the first and those of the second (`Derives.juxtaposed`), unless the first text ends with
such a body and the second begins with what can continue an expression.
-/

namespace Steppable.Parser

variable {g : Goal} {power k : Nat} {us ts rest : List Token} {t u e : Token} {n : Node}
  {ns ss : List Node}

/-! ## One token of lookahead -/

/-- The tokens `ts` with `us` in place of the last `k` of them. -/
def regrow (k : Nat) (us ts : List Token) : List Token :=
  ts.take (ts.length - k) ++ us

theorem regrow_cons (h : k ≤ ts.length) : regrow k us (t :: ts) = t :: regrow k us ts := by
  simp [regrow, Nat.succ_sub h]

theorem Derives.le (h : Derives g ts ns rest) : rest.length ≤ ts.length := by
  have := h.length_le
  omega

/-- **One token of lookahead is enough.** Every rule carries over: the tokens that it names are in
front of what is replaced, because so is the first token that it leaves. -/
theorem Derives.regrown (h : Derives g ts ns rest) (hk : k < rest.length) (us : List Token) :
    Derives g (regrow k us ts) ns (regrow k us rest) := by
  induction h with
  | _ => grind [intro Derives, regrow_cons, → Derives.le]

/-- What is left is the end of what was given. -/
theorem Derives.suffix (h : Derives g ts ns rest) : rest <:+ ts := by
  induction h with
  | _ => grind [List.IsSuffix.trans, List.suffix_cons]

/-! ## Before the end -/

/-- Whether the text of the node may end with the body of an `if` or a `while`. -/
def endsInBody : Node → Bool
  | .guarded .. => true
  | .choice _ ternary _ _ b => !ternary || endsInBody b
  | .loop _ bodyFirst _ _ => !bodyFirst
  | .binary _ _ _ r => endsInBody r
  | .unary _ _ n => endsInBody n
  | .assign _ _ v => endsInBody v
  | .giveBack _ v => endsInBody v
  | _ => false

theorem endsInBody_of_isAssignable (h : n.isAssignable = true) : endsInBody n = false := by
  cases n <;> first | rfl | cases h

/-- What is left of `us` behind some of the semicolons that it begins with. -/
def Trails (us rest : List Token) : Prop :=
  ∃ ss, (∀ s ∈ ss, s.kind = .semicolon) ∧ us = ss ++ rest

theorem Trails.refl (us : List Token) : Trails us us :=
  ⟨[], by simp, rfl⟩

theorem Trails.tail (h : Trails us (t :: rest)) (ht : t.kind = .semicolon) : Trails us rest := by
  obtain ⟨ss, hss, rfl⟩ := h
  refine ⟨ss ++ [t], ?_, by simp⟩
  intro s hs
  rcases List.mem_append.1 hs with hs | hs
  · exact hss s hs
  · rw [List.mem_singleton.1 hs, ht]

/-- No expression takes the first token of `us` behind its semicolons. -/
def Loose (us : List Token) : Prop :=
  ∀ t ts, Trails us (t :: ts) → continues t.kind = false ∧ t.isWord "else" = false

/-- The goal can be met in front of `us` too: if an expression ends there, either `us` is loose or the
expression does not end in a body. -/
def Suits (us : List Token) (ns : List Node) : Goal → Prop
  | .arguments | .condition | .statements (some _) => True
  | .argumentList | .statements none => False
  | _ => Loose us ∨ ns.head?.any endsInBody = false

/-- What the goal leaves in front of `us`: a statement, or what ends in a body, may have taken
semicolons. -/
def Leaves (us : List Token) (ns : List Node) (rest : List Token) : Goal → Prop
  | .statement => Trails us rest
  | .expression _ | .operations .. | .operand _ | .operation _ =>
    Trails us rest ∧ (ns.head?.any endsInBody = false → rest = us)
  | _ => rest = us

/-- The goal is met with `us` in place of the end of the input. -/
def Carries (us : List Token) (g : Goal) (ts : List Token) (ns : List Node) : Prop :=
  Suits us ns g → ∃ rest, Derives g (regrow 1 us ts) ns rest ∧ Leaves us ns rest g

theorem Trails.ne_nil (h : Trails us rest) (hus : Token.Proper us) : rest ≠ [] := by
  rintro rfl
  obtain ⟨ss, hss, rfl⟩ := h
  obtain ⟨vs, e, hvs, he, -⟩ := hus
  have := hss e (by rw [← List.append_nil ss, hvs]; simp)
  rw [this] at he
  cases he

section Carries

variable {l m : Node} {ts₁ : List Token} {s : Token}

/-- What stands before `us` does not go on. -/
theorem halts (hs : s.kind = .semicolon) (hus : Token.Proper (s :: us))
    (hl : Loose (s :: us) ∨ endsInBody l = false)
    (h : Trails (s :: us) rest ∧ (endsInBody l = false → rest = s :: us)) :
    Derives (.operations power l) rest [l] rest := by
  obtain ⟨t, ts, rfl⟩ := List.exists_cons_of_ne_nil (h.1.ne_nil hus)
  have hc : continues t.kind = false := by
    rcases hl with hl | hl
    · exact (hl t ts h.1).1
    · obtain ⟨rfl, -⟩ := List.cons.inj (h.2 hl)
      rw [hs]
      rfl
  exact .stop fun hc' => by simp [hc] at hc'

/-- An expression does not begin at the end of the input. -/
theorem Derives.one_lt (h : Derives (.expression power) ts [n] [e]) (he : e.kind = .endOfInput) :
    1 < ts.length := by
  refine Nat.lt_of_le_of_ne h.le fun heq => ?_
  obtain ⟨t, us, rfl, hr, ht⟩ := h.expression_idle heq
  obtain ⟨rfl, -⟩ := List.cons.inj hr
  simp [he] at ht

theorem Derives.regrow_lead (h : Derives g ts ns rest) (hr : 1 ≤ rest.length) :
    regrow 1 us (t :: ts) = t :: regrow 1 us ts :=
  regrow_cons (Nat.le_trans hr h.le)

/-- The operators after what was read first: at the end of the input there are none. -/
theorem carries_operations (hs : s.kind = .semicolon) (hus : Token.Proper (s :: us)) {f : Goal}
    (h₁ : Derives f ts [m] ts₁) (h₂ : Derives (.operations power m) ts₁ [n] [e])
    (ih₁ : ts₁ = [e] → Loose (s :: us) ∨ endsInBody m = false →
      ∃ rest, Derives f (regrow 1 (s :: us) ts) [m] rest ∧ Trails (s :: us) rest ∧
        (endsInBody m = false → rest = s :: us))
    (ih₂ : Carries (s :: us) (.operations power m) ts₁ [n])
    (hn : Loose (s :: us) ∨ endsInBody n = false) :
    ∃ ts₂ rest, Derives f (regrow 1 (s :: us) ts) [m] ts₂ ∧
      Derives (.operations power m) ts₂ [n] rest ∧ Trails (s :: us) rest ∧
        (endsInBody n = false → rest = s :: us) := by
  have hle := h₂.le
  by_cases hlt : 1 < ts₁.length
  · obtain ⟨rest, d₂, hrest⟩ := ih₂ hn
    exact ⟨_, rest, h₁.regrown hlt _, d₂, hrest⟩
  · cases h₂ with
    | stop =>
      obtain ⟨rest, d₁, hrest⟩ := ih₁ rfl hn
      exact ⟨rest, rest, d₁, halts hs hus hn hrest, hrest⟩
    | more _ _ h₃ h₄ =>
      have := h₃.length_le
      have := h₄.le
      simp only [Goal.least, List.length_cons] at *
      omega

/-- A statement takes a semicolon of what follows, if there is one left. -/
theorem carries_statement (hus : Token.Proper (s :: us)) (h : Derives (.expression 0) ts [n] rest)
    (hr : Trails (s :: us) rest) : ∃ rest', Derives .statement ts [n] rest' ∧ Trails (s :: us) rest' := by
  obtain ⟨t, rest, rfl⟩ := List.exists_cons_of_ne_nil (hr.ne_nil hus)
  by_cases ht : t.kind = .semicolon
  · exact ⟨rest, .terminated h ht, hr.tail ht⟩
  · exact ⟨t :: rest, .unterminated h ht, hr⟩

theorem Derives.statements_lt {k : Token.Kind} (h : Derives (.statements (some k)) ts ss rest) :
    rest.length < ts.length := by
  cases h with
  | closed => simp
  | statements _ h₁ h₂ =>
    have := h₁.statement_lt
    have := h₂.le
    omega

/-- **A derivation that reaches the end of the input carries over** to a semicolon and more tokens in
its place. -/
theorem Derives.extends (h : Derives g ts ns rest) (he : e.kind = .endOfInput)
    (hs : s.kind = .semicolon) (hus : Token.Proper (s :: us)) (hr : rest = [e]) :
    Carries (s :: us) g ts ns := by
  -- The induction is on the derivation. Only the last part of a rule reaches the end; the parts
  -- before it are covered by `Derives.regrown`.
  induction h with
  | expression ht h₁ h₂ ih₁ ih₂ =>
    subst hr
    intro hn
    obtain ⟨ts₂, rest, d₁, d₂, hrest⟩ := carries_operations hs hus h₁ h₂ ih₁ (ih₂ rfl) hn
    have := (Derives.expression ht h₁ h₂).one_lt he
    rw [regrow_cons (Nat.le_of_lt_succ this)] at d₁ ⊢
    exact ⟨rest, .expression ht d₁ d₂, hrest⟩
  | stop =>
    rw [hr]
    intro hn
    exact ⟨_, halts hs hus hn ⟨.refl _, fun _ => rfl⟩, .refl _, fun _ => rfl⟩
  | more hlt hc h₁ h₂ ih₁ ih₂ =>
    subst hr
    intro hn
    obtain ⟨ts₂, rest, d₁, d₂, hrest⟩ := carries_operations hs hus h₁ h₂ ih₁ (ih₂ rfl) hn
    have l₁ := h₁.length_le
    have l₂ := h₂.le
    simp only [Goal.least, List.length_cons] at l₁ l₂
    rw [regrow_cons (by omega)] at d₁ ⊢
    exact ⟨rest, .more hlt hc d₁ d₂, hrest⟩
  -- operators
  | binary ht h₁ ih₁ =>
    subst hr
    intro hn
    obtain ⟨rest, d₁, hrest⟩ := ih₁ rfl hn
    rw [h₁.regrow_lead (by simp)]
    exact ⟨rest, .binary ht d₁, hrest⟩
  | index ht h₁ hu =>
    subst hr
    rw [Carries, h₁.regrow_lead (by simp)]
    exact fun _ => ⟨_, .index ht (h₁.regrown (by simp) _) hu, .refl _, fun _ => rfl⟩
  | call ht h₁ ih₁ =>
    subst hr
    obtain ⟨rest, d₁, rfl⟩ := ih₁ rfl trivial
    rw [Carries, h₁.regrow_lead (by simp)]
    exact fun _ => ⟨_, .call ht d₁, .refl _, fun _ => rfl⟩
  | ternary ht h₁ hu h₂ ih₁ ih₂ =>
    subst hr
    intro hn
    obtain ⟨rest, d₂, hrest⟩ := ih₂ rfl hn
    have d₁ := h₁.regrown (k := 1) (Nat.lt_succ_of_le h₂.le) (s :: us)
    rw [h₂.regrow_lead (by simp)] at d₁
    rw [h₁.regrow_lead (by simp)]
    exact ⟨rest, .ternary ht d₁ hu d₂, hrest⟩
  | assign ht hl h₁ ih₁ =>
    subst hr
    intro hn
    obtain ⟨rest, d₁, hrest⟩ := ih₁ rfl hn
    rw [h₁.regrow_lead (by simp)]
    exact ⟨rest, .assign ht hl d₁, hrest⟩
  | compound ht hl h₁ ih₁ =>
    subst hr
    intro hn
    obtain ⟨rest, d₁, hrest⟩ := ih₁ rfl hn
    rw [h₁.regrow_lead (by simp)]
    exact ⟨rest, .compound ht hl d₁, hrest⟩
  | member ht hu =>
    subst hr
    exact fun _ => ⟨s :: us, .member ht hu, .refl _, fun _ => rfl⟩
  | postfixed ht hl =>
    subst hr
    exact fun _ => ⟨s :: us, .postfixed ht hl, .refl _, fun _ => rfl⟩
  -- arguments
  | noArguments ht =>
    subst hr
    exact fun _ => ⟨s :: us, .noArguments ht, rfl⟩
  | someArguments ht h₁ hu =>
    subst hr
    have l₁ := h₁.le
    have d₁ := h₁.regrown (k := 1) (by simp) (s :: us)
    rw [regrow_cons (by simp at l₁ ⊢; omega)] at d₁
    rw [Carries, regrow_cons (by simp at l₁ ⊢; omega)]
    exact fun _ => ⟨_, .someArguments ht d₁ hu, rfl⟩
  | lastArgument => exact fun h => h.elim
  | nextArgument => exact fun h => h.elim
  -- operands
  | number ht =>
    subst hr
    exact fun _ => ⟨s :: us, .number ht, .refl _, fun _ => rfl⟩
  | string ht =>
    subst hr
    exact fun _ => ⟨s :: us, .string ht, .refl _, fun _ => rfl⟩
  | prefixed ht h₁ hn ih₁ =>
    subst hr
    have hb := endsInBody_of_isAssignable hn
    obtain ⟨rest, d₁, hrest⟩ := ih₁ rfl (.inr hb)
    obtain rfl := hrest.2 hb
    rw [Carries, h₁.regrow_lead (by simp)]
    exact fun _ => ⟨s :: us, .prefixed ht d₁ hn, .refl _, fun _ => rfl⟩
  | unary ht h₁ ih₁ =>
    subst hr
    intro hn
    obtain ⟨rest, d₁, hrest⟩ := ih₁ rfl hn
    rw [h₁.regrow_lead (by simp)]
    exact ⟨rest, .unary ht d₁, hrest⟩
  | parens ht h₁ hu =>
    subst hr
    rw [Carries, h₁.regrow_lead (by simp)]
    exact fun _ => ⟨_, .parens ht (h₁.regrown (by simp) _) hu, .refl _, fun _ => rfl⟩
  | braces ht h₁ ih₁ =>
    subst hr
    obtain ⟨rest, d₁, rfl⟩ := ih₁ rfl trivial
    rw [Carries, h₁.regrow_lead (by simp)]
    exact fun _ => ⟨_, .braces ht d₁, .refl _, fun _ => rfl⟩
  | nop ht =>
    obtain ⟨rfl, -⟩ := List.cons.inj hr
    simp [he] at ht
  | constant ht hv =>
    subst hr
    exact fun _ => ⟨s :: us, .constant ht hv, .refl _, fun _ => rfl⟩
  | name ht hv hs =>
    subst hr
    exact fun _ => ⟨s :: us, .name ht hv hs, .refl _, fun _ => rfl⟩
  -- statements
  | breaking ht =>
    subst hr
    exact fun _ => ⟨s :: us, .breaking ht, .refl _, fun _ => rfl⟩
  | continuing ht =>
    subst hr
    exact fun _ => ⟨s :: us, .continuing ht, .refl _, fun _ => rfl⟩
  | bareReturn ht =>
    obtain ⟨rfl, rfl⟩ := List.cons.inj hr
    exact fun _ => ⟨s :: us, .bareReturn ht (by rw [hs]; rfl), .refl _, fun _ => rfl⟩
  | giveBack ht hu h₁ ih₁ =>
    subst hr
    intro hn
    obtain ⟨rest, d₁, hrest⟩ := ih₁ rfl hn
    have := h₁.one_lt he
    rw [h₁.regrow_lead (by simp)]
    rw [regrow_cons (Nat.le_of_lt_succ this)] at d₁ ⊢
    exact ⟨rest, .giveBack ht hu d₁, hrest⟩
  | guarded ht h₁ h₂ hu ih₁ ih₂ =>
    intro hn
    have hl : Loose (s :: us) := hn.elim id fun h => by cases h
    obtain ⟨rest, d₂, hrest⟩ := ih₂ hr (.inl hl)
    obtain ⟨u', rest, rfl⟩ := List.exists_cons_of_ne_nil (hrest.ne_nil hus)
    have hlt : 1 < _ := Nat.lt_of_le_of_lt (by simp) h₂.statement_lt
    have d₁ := h₁.regrown (k := 1) hlt (s :: us)
    rw [h₁.regrow_lead (Nat.le_of_lt hlt)]
    exact ⟨_, .guarded ht d₁ d₂ (hl _ _ hrest).2, hrest, fun h => by cases h⟩
  | choice ht h₁ h₂ hu h₃ ih₁ ih₂ ih₃ =>
    subst hr
    intro hn
    have hl : Loose (s :: us) := hn.elim id fun h => by cases h
    obtain ⟨rest, d₃, hrest⟩ := ih₃ rfl (.inl hl)
    have d₂ := h₂.regrown (k := 1) (Nat.lt_succ_of_le h₃.le) (s :: us)
    have hlt : 1 < _ := Nat.lt_of_le_of_lt (by simp) h₂.statement_lt
    have d₁ := h₁.regrown (k := 1) hlt (s :: us)
    rw [h₃.regrow_lead (by simp)] at d₂
    rw [h₁.regrow_lead (Nat.le_of_lt hlt)]
    exact ⟨rest, .choice ht d₁ d₂ hu d₃, hrest, fun h => by cases h⟩
  | whileLoop ht h₁ h₂ ih₁ ih₂ =>
    subst hr
    intro hn
    have hl : Loose (s :: us) := hn.elim id fun h => by cases h
    obtain ⟨rest, d₂, hrest⟩ := ih₂ rfl (.inl hl)
    have d₁ := h₁.regrown (k := 1) h₂.statement_lt (s :: us)
    rw [h₁.regrow_lead (Nat.le_of_lt h₂.statement_lt)]
    exact ⟨rest, .whileLoop ht d₁ d₂, hrest, fun h => by cases h⟩
  | doLoop ht h₁ hu h₂ ih₁ ih₂ =>
    subst hr
    obtain ⟨rest, d₂, rfl⟩ := ih₂ rfl trivial
    have d₁ := h₁.regrown (k := 1) (Nat.lt_succ_of_le h₂.le) (s :: us)
    rw [h₂.regrow_lead (by simp)] at d₁
    rw [Carries, h₁.regrow_lead (by simp)]
    exact fun _ => ⟨_, .doLoop ht d₁ hu d₂, .refl _, fun _ => rfl⟩
  | condition ht h₁ hu =>
    subst hr
    rw [Carries, h₁.regrow_lead (by simp)]
    exact fun _ => ⟨_, .condition ht (h₁.regrown (by simp) _) hu, rfl⟩
  | terminated h₁ hu =>
    subst hr
    exact fun _ => ⟨_, .terminated (h₁.regrown (by simp) _) hu, .refl _⟩
  | unterminated h₁ hu ih₁ =>
    intro hn
    obtain ⟨rest, d₁, hrest⟩ := ih₁ hr hn
    exact carries_statement hus d₁ hrest.1
  | closed hk ht =>
    subst hr
    exact fun _ => ⟨s :: us, .closed hk ht, rfl⟩
  | ended => exact fun h => h.elim
  | @statements closing _ _ _ _ _ _ ht h₁ h₂ ih₁ ih₂ =>
    subst hr
    cases closing with
    | none => exact fun h => h.elim
    | some k =>
      obtain ⟨rest, d₂, rfl⟩ := ih₂ rfl trivial
      have d₁ := h₁.regrown (k := 1) h₂.statements_lt (s :: us)
      have l₁ := h₁.statement_lt
      have l₂ := h₂.statements_lt
      simp only [List.length_cons] at l₁ l₂
      rw [Carries, regrow_cons (by omega)]
      rw [regrow_cons (by omega)] at d₁
      exact fun _ => ⟨_, .statements ht d₁ d₂, rfl⟩

end Carries

/-! ## Side by side -/

/-- Whether the node is the empty statement. -/
def isNop : Node → Bool
  | .nop _ => true
  | _ => false

/-- The statements that are not empty. -/
def solid (ss : List Node) : List Node :=
  ss.filter fun s => !isNop s

theorem solid_cons (n : Node) (ss : List Node) : solid (n :: ss) = solid [n] ++ solid ss :=
  List.filter_append [n] ss

section Juxtaposition

variable {s : Token} {fin : List Token} {ss' : List Node}

theorem Derives.nop_statement (hs : s.kind = .semicolon) : Derives .statement (s :: us) [.nop {}] us := by
  have hc : ¬ (0 < s.kind.precedence ∧ continues s.kind = true) := by
    rw [hs]
    exact fun h => by cases h.2
  exact .terminated (.expression (by rw [hs]; rfl) (.nop hs) (.stop hc)) hs

/-- What begins with a semicolon is the empty statement. -/
theorem Derives.expression_eq_nop (h : Derives (.expression 0) (s :: us) [n] rest)
    (hs : s.kind = .semicolon) : n = .nop {} ∧ rest = s :: us := by
  cases h with
  | @expression _ _ _ ts₁ _ l _ _ h₁ h₂ =>
    obtain ⟨rfl, rfl⟩ : l = .nop {} ∧ ts₁ = s :: us := by
      cases h₁ <;> simp_all [Token.isWord, Token.Kind.isIdentifier, Token.Kind.class?,
        Token.Kind.unary?]
    cases h₂ with
    | stop => exact ⟨rfl, rfl⟩
    | more _ hc => simp [hs, continues] at hc

theorem Derives.eq_nop (h : Derives .statement (s :: us) [n] rest) (hs : s.kind = .semicolon) :
    n = .nop {} ∧ rest = us := by
  cases h with
  | terminated h₁ =>
    obtain ⟨rfl, hr⟩ := h₁.expression_eq_nop hs
    exact ⟨rfl, (List.cons.inj hr).2⟩
  | unterminated h₁ hu =>
    obtain ⟨rfl, hr⟩ := h₁.expression_eq_nop hs
    obtain ⟨rfl, -⟩ := List.cons.inj hr
    exact (hu hs).elim

/-- No statement begins with `else`. -/
theorem Derives.head_ne_else (h : Derives (.statements none) (t :: ts) ss rest) :
    t.isWord "else" = false := by
  refine Bool.eq_false_iff.2 fun ht => ?_
  have hk := Token.kind_of_isWord ht
  have htext := Token.text_of_isWord ht
  cases h with
  | ended he => simp [hk] at he
  | statements _ h₁ _ =>
    have operand : ∀ {l : Node} {ts₁ : List Token}, ¬ Derives (.operand 0) (t :: ts) [l] ts₁ := by
      intro l ts₁ h
      cases h <;> simp_all [Token.isWord, Token.Kind.unary?, namedConstant?, keywords]
    cases h₁ with
    | terminated h₂ | unterminated h₂ =>
      cases h₂ with
      | expression _ h₃ _ => exact operand h₃

/-- The semicolons in front of statements are empty statements. -/
theorem Derives.trails (h : Derives (.statements none) us ss fin) (ht : Trails us rest) :
    ∃ ss', Derives (.statements none) rest ss' fin ∧ solid ss' = solid ss := by
  obtain ⟨ts, hts, rfl⟩ := ht
  induction ts generalizing ss with
  | nil => exact ⟨ss, h, rfl⟩
  | cons t ts ih =>
    have htk := hts t (by simp)
    cases h with
    | ended he => simp [htk] at he
    | statements _ h₁ h₂ =>
      obtain ⟨rfl, rfl⟩ := h₁.eq_nop htk
      obtain ⟨ss', h', heq⟩ := ih (fun s hs => hts s (List.mem_cons_of_mem _ hs)) h₂
      exact ⟨ss', h', heq⟩

/-- **Statements with a semicolon between them**, in the place where the first ones ended the input,
are the statements of both, empty ones aside. -/
theorem Derives.juxtaposed (h : Derives (.statements none) ts ss [e]) (he : e.kind = .endOfInput)
    (hs : s.kind = .semicolon) (hus : Token.Proper (s :: us))
    (h' : Derives (.statements none) us ss' fin)
    (hb : Loose (s :: us) ∨ ∀ n ∈ ss.getLast?, endsInBody n = false) :
    ∃ vs, Derives (.statements none) (regrow 1 (s :: us) ts) vs fin ∧ vs ≠ [] ∧
      solid vs = solid ss ++ solid ss' := by
  have hnop : Derives (.statements none) (s :: us) (.nop {} :: ss') fin :=
    .statements (by simp [hs]) (.nop_statement hs) h'
  generalize hg : Goal.statements none = g at h
  generalize hr : [e] = rest at h
  induction h with
  | ended =>
    obtain ⟨rfl, rfl⟩ := List.cons.inj hr
    exact ⟨_, hnop, by simp, rfl⟩
  | @statements closing n ss t ts ts₁ rest ht h₁ h₂ ih₁ ih₂ =>
    cases hg
    subst hr
    have l₁ := h₁.statement_lt
    have l₂ := h₂.le
    simp only [List.length_cons] at l₁ l₂
    by_cases hlt : 1 < ts₁.length
    · have hss : ss ≠ [] := by
        rintro rfl
        cases h₂ with
        | ended => simp at hlt
      rw [List.getLast?_cons_of_ne_nil hss] at hb
      obtain ⟨vs, d₂, -, hvs⟩ := ih₂ hb rfl rfl
      have d₁ := h₁.regrown hlt (s :: us)
      rw [regrow_cons (by omega)] at d₁ ⊢
      refine ⟨n :: vs, .statements ht d₁ d₂, by simp, ?_⟩
      rw [solid_cons, hvs, solid_cons n ss, List.append_assoc]
    · cases h₂ with
      | statements _ h₃ h₄ =>
        have := h₃.statement_lt
        have := h₄.le
        simp only [List.length_cons] at *
        omega
      | ended =>
        obtain ⟨rest, d₁, hrest⟩ := h₁.extends he hs hus rfl (hb.imp id fun h => h n rfl)
        obtain ⟨vs, d₂, hvs⟩ := hnop.trails hrest
        rw [regrow_cons (by omega)] at d₁ ⊢
        refine ⟨n :: vs, .statements ht d₁ d₂, by simp, ?_⟩
        rw [solid_cons, hvs]
        rfl
  | _ => cases hg

end Juxtaposition

end Steppable.Parser
