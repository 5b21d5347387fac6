import Steppable.Parser.Grammar

/-!
# The grammar as a relation

`Derives g ts ns rest` says that what the goal `g` asks for can be read from the front of the tokens
`ts`: it is `ns`, and `rest` is left. There is one rule for each production of the grammar without
declarations, so every name is a name for the host. Places, identities and fuel do not occur; the
nodes are shapes.

A derivation never leaves more tokens than it was given, and where something has to be read it leaves
less (`Derives.length_le`, `Derives.statement_lt`).
-/

namespace Steppable

namespace Token

/-- Whether the token is the name `s`. -/
def isWord (t : Token) (s : String) : Bool :=
  t.kind.isIdentifier && t.text == s

theorem kind_of_isIdentifier {t : Token} (h : t.kind.isIdentifier = true) : t.kind = .identifier := by
  unfold Kind.isIdentifier Kind.class? at h
  split at h <;> simp_all

theorem kind_of_isWord {t : Token} {s : String} (h : t.isWord s = true) : t.kind = .identifier :=
  kind_of_isIdentifier (Bool.and_eq_true_iff.1 h).1

theorem text_of_isWord {t : Token} {s : String} (h : t.isWord s = true) : t.text = s :=
  eq_of_beq (Bool.and_eq_true_iff.1 h).2

end Token

namespace Parser

/-- The words that begin a statement or belong to one. -/
def keywords : List String :=
  ["if", "while", "do", "var", "function", "break", "continue", "return", "else"]

/-- What a reader of the grammar is asked for. -/
inductive Goal where
  /-- Operators that bind more strongly than `power`. -/
  | expression (power : Nat)
  /-- The operators of that strength after `left`. -/
  | operations (power : Nat) (left : Node)
  | operand (power : Nat)
  /-- One operation on `left`. -/
  | operation (left : Node)
  /-- The arguments of a call with the parenthesis after them. -/
  | arguments
  | argumentList
  | condition
  | statement
  | statements (closing : Option Token.Kind)

/-- Statements in braces; one of them stands for itself. -/
def grouped : List Node → Node
  | [s] => s
  | ss => .block {} ss []

/-- Whether a `return` before a token of kind `k` has no value. -/
def endsReturn : Token.Kind → Bool
  | .semicolon | .closeCurly | .endOfInput => true
  | _ => false

/-- What the goal asks for is read from the front of the tokens; the last argument is what is left. -/
inductive Derives : Goal → List Token → List Node → List Token → Prop
  | expression {power : Nat} {t : Token} {ts ts₁ ts₂ : List Token} {l n : Node} :
      t.kind.isLast = false → Derives (.operand power) (t :: ts) [l] ts₁ →
      Derives (.operations power l) ts₁ [n] ts₂ → Derives (.expression power) (t :: ts) [n] ts₂
  -- operators
  | stop {power : Nat} {l : Node} {t : Token} {ts : List Token} :
      ¬ (power < t.kind.precedence ∧ continues t.kind = true) →
      Derives (.operations power l) (t :: ts) [l] (t :: ts)
  | more {power : Nat} {l m n : Node} {t : Token} {ts ts₁ ts₂ : List Token} :
      power < t.kind.precedence → continues t.kind = true →
      Derives (.operation l) (t :: ts) [m] ts₁ → Derives (.operations power m) ts₁ [n] ts₂ →
      Derives (.operations power l) (t :: ts) [n] ts₂
  | binary {op : BinaryOp} {l r : Node} {t : Token} {ts ts₁ : List Token} :
      t.kind = .binary op →
      Derives (.expression (if op.isLogical then rightPower t.kind else t.kind.precedence)) ts [r]
        ts₁ →
      Derives (.operation l) (t :: ts) [.binary {} op l r] ts₁
  | member {l : Node} {t u : Token} {ts : List Token} :
      t.kind = .dot → u.kind = .identifier →
      Derives (.operation l) (t :: u :: ts) [.member {} l u.text] ts
  | index {l i : Node} {t u : Token} {ts ts₁ : List Token} :
      t.kind = .openSquare → Derives (.expression 0) ts [i] (u :: ts₁) → u.kind = .closeSquare →
      Derives (.operation l) (t :: ts) [.index {} l i] ts₁
  | call {l : Node} {as : List Node} {t : Token} {ts ts₁ : List Token} :
      t.kind = .openPar → Derives .arguments ts as ts₁ →
      Derives (.operation l) (t :: ts) [.call {} l as] ts₁
  | ternary {l a b : Node} {t u : Token} {ts ts₁ ts₂ : List Token} :
      t.kind = .questionMark → Derives (.expression (rightPower .assign)) ts [a] (u :: ts₁) →
      u.kind = .colon → Derives (.expression (rightPower t.kind)) ts₁ [b] ts₂ →
      Derives (.operation l) (t :: ts) [.choice {} true l a b] ts₂
  | assign {l v : Node} {t : Token} {ts ts₁ : List Token} :
      t.kind = .assign → l.isAssignable = true →
      Derives (.expression (rightPower t.kind)) ts [v] ts₁ →
      Derives (.operation l) (t :: ts) [.assign {} l v] ts₁
  | compound {op : Arith} {l v : Node} {t : Token} {ts ts₁ : List Token} :
      t.kind = .compound op → l.isAssignable = true →
      Derives (.expression (rightPower t.kind)) ts [v] ts₁ →
      Derives (.operation l) (t :: ts) [.assign {} l (.binary {} (.arith op) l v)] ts₁
  | postfixed {l : Node} {t : Token} {ts : List Token} :
      t.kind = .increment ∨ t.kind = .decrement → l.isAssignable = true →
      Derives (.operation l) (t :: ts) [.adjust {} ⟨t.kind = .increment, false⟩ l] ts
  -- arguments
  | noArguments {t : Token} {ts : List Token} :
      t.kind = .closePar → Derives .arguments (t :: ts) [] ts
  | someArguments {as : List Node} {t u : Token} {ts ts₁ : List Token} :
      t.kind ≠ .closePar → Derives .argumentList (t :: ts) as (u :: ts₁) → u.kind = .closePar →
      Derives .arguments (t :: ts) as ts₁
  | lastArgument {a : Node} {u : Token} {ts ts₁ : List Token} :
      Derives (.expression argumentPower) ts [a] (u :: ts₁) → u.kind ≠ .comma →
      Derives .argumentList ts [a] (u :: ts₁)
  | nextArgument {a : Node} {as : List Node} {u : Token} {ts ts₁ ts₂ : List Token} :
      Derives (.expression argumentPower) ts [a] (u :: ts₁) → u.kind = .comma →
      Derives .argumentList ts₁ as ts₂ → Derives .argumentList ts (a :: as) ts₂
  -- operands
  | number {power : Nat} {form : NumberForm} {t : Token} {ts : List Token} :
      t.kind = .number form →
      Derives (.operand power) (t :: ts) [.constant {} (.number t.number)] ts
  | string {power : Nat} {t : Token} {ts : List Token} :
      t.kind = .string → Derives (.operand power) (t :: ts) [.constant {} (.string t.text)] ts
  | prefixed {power : Nat} {n : Node} {t : Token} {ts ts₁ : List Token} :
      t.kind = .increment ∨ t.kind = .decrement → Derives (.expression unaryPower) ts [n] ts₁ →
      n.isAssignable = true →
      Derives (.operand power) (t :: ts) [.adjust {} ⟨t.kind = .increment, true⟩ n] ts₁
  | unary {power : Nat} {op : UnaryOp} {n : Node} {t : Token} {ts ts₁ : List Token} :
      t.kind.unary? = some op → Derives (.expression unaryPower) ts [n] ts₁ →
      Derives (.operand power) (t :: ts) [.unary {} op n] ts₁
  | parens {power : Nat} {n : Node} {t u : Token} {ts ts₁ : List Token} :
      t.kind = .openPar → Derives (.expression 0) ts [n] (u :: ts₁) → u.kind = .closePar →
      Derives (.operand power) (t :: ts) [n] ts₁
  | braces {power : Nat} {ss : List Node} {t : Token} {ts ts₁ : List Token} :
      t.kind = .openCurly → Derives (.statements (some .closeCurly)) ts ss ts₁ →
      Derives (.operand power) (t :: ts) [grouped ss] ts₁
  | nop {t : Token} {ts : List Token} :
      t.kind = .semicolon → Derives (.operand 0) (t :: ts) [.nop {}] (t :: ts)
  | constant {power : Nat} {v : Value} {t : Token} {ts : List Token} :
      t.kind = .identifier → namedConstant? t.text = some v →
      Derives (.operand power) (t :: ts) [.constant {} v] ts
  | name {power : Nat} {t : Token} {ts : List Token} :
      t.kind = .identifier → namedConstant? t.text = none → t.text ∉ keywords →
      Derives (.operand power) (t :: ts) [.name {} t.text] ts
  -- statements
  | breaking {power : Nat} {t : Token} {ts : List Token} :
      t.isWord "break" = true → Derives (.operand power) (t :: ts) [.jump {} .break] ts
  | continuing {power : Nat} {t : Token} {ts : List Token} :
      t.isWord "continue" = true → Derives (.operand power) (t :: ts) [.jump {} .continue] ts
  | bareReturn {power : Nat} {t u : Token} {ts : List Token} :
      t.isWord "return" = true → endsReturn u.kind = true →
      Derives (.operand power) (t :: u :: ts) [.jump {} .return] (u :: ts)
  | giveBack {power : Nat} {v : Node} {t u : Token} {ts ts₁ : List Token} :
      t.isWord "return" = true → endsReturn u.kind = false →
      Derives (.expression 0) (u :: ts) [v] ts₁ →
      Derives (.operand power) (t :: u :: ts) [.giveBack {} v] ts₁
  | guarded {power : Nat} {c a : Node} {t u : Token} {ts ts₁ ts₂ : List Token} :
      t.isWord "if" = true → Derives .condition ts [c] ts₁ → Derives .statement ts₁ [a] (u :: ts₂) →
      u.isWord "else" = false → Derives (.operand power) (t :: ts) [.guarded {} c a] (u :: ts₂)
  | choice {power : Nat} {c a b : Node} {t u : Token} {ts ts₁ ts₂ ts₃ : List Token} :
      t.isWord "if" = true → Derives .condition ts [c] ts₁ → Derives .statement ts₁ [a] (u :: ts₂) →
      u.isWord "else" = true → Derives .statement ts₂ [b] ts₃ →
      Derives (.operand power) (t :: ts) [.choice {} false c a b] ts₃
  | whileLoop {power : Nat} {c b : Node} {t : Token} {ts ts₁ ts₂ : List Token} :
      t.isWord "while" = true → Derives .condition ts [c] ts₁ → Derives .statement ts₁ [b] ts₂ →
      Derives (.operand power) (t :: ts) [.loop {} false c b] ts₂
  | doLoop {power : Nat} {c b : Node} {t u : Token} {ts ts₁ ts₂ : List Token} :
      t.isWord "do" = true → Derives .statement ts [b] (u :: ts₁) → u.isWord "while" = true →
      Derives .condition ts₁ [c] ts₂ → Derives (.operand power) (t :: ts) [.loop {} true c b] ts₂
  | condition {c : Node} {t u : Token} {ts ts₁ : List Token} :
      t.kind = .openPar → Derives (.expression 0) ts [c] (u :: ts₁) → u.kind = .closePar →
      Derives .condition (t :: ts) [c] ts₁
  | terminated {n : Node} {u : Token} {ts ts₁ : List Token} :
      Derives (.expression 0) ts [n] (u :: ts₁) → u.kind = .semicolon →
      Derives .statement ts [n] ts₁
  | unterminated {n : Node} {u : Token} {ts ts₁ : List Token} :
      Derives (.expression 0) ts [n] (u :: ts₁) → u.kind ≠ .semicolon →
      Derives .statement ts [n] (u :: ts₁)
  | closed {k : Token.Kind} {t : Token} {ts : List Token} :
      k.isLast = false → t.kind = k → Derives (.statements (some k)) (t :: ts) [] ts
  | ended {t : Token} {ts : List Token} :
      t.kind = .endOfInput → Derives (.statements none) (t :: ts) [] (t :: ts)
  | statements {closing : Option Token.Kind} {s : Node} {ss : List Node} {t : Token}
      {ts ts₁ ts₂ : List Token} :
      t.kind ≠ closing.getD .endOfInput → Derives .statement (t :: ts) [s] ts₁ →
      Derives (.statements closing) ts₁ ss ts₂ →
      Derives (.statements closing) (t :: ts) (s :: ss) ts₂

variable {g : Goal} {power : Nat} {ns : List Node} {n l : Node} {t : Token} {ts rest : List Token}

/-! ## Progress -/

/-- How many tokens the goal takes at least, whatever they are. -/
def Goal.least : Goal → Nat
  | .operation _ | .arguments | .condition => 1
  | _ => 0

theorem Derives.length_le (h : Derives g ts ns rest) : rest.length + g.least ≤ ts.length := by
  induction h with
  | _ => simp_all [Goal.least] <;> omega

/-- Only the empty statement is an operand that takes no token. -/
theorem Derives.operand_idle (h : Derives (.operand power) ts ns rest)
    (hr : rest.length = ts.length) : rest = ts ∧ ∃ t us, ts = t :: us ∧ t.kind = .semicolon := by
  cases h with
  | @nop t us ht => exact ⟨rfl, t, us, rfl, ht⟩
  | number | string | constant | name | breaking | continuing | bareReturn => simp at hr
  | prefixed _ h₁ | unary _ h₁ | parens _ h₁ | braces _ h₁ | giveBack _ _ h₁ =>
    have := h₁.length_le
    simp [Goal.least] at this hr
    omega
  | guarded _ h₁ h₂ | whileLoop _ h₁ h₂ | doLoop _ h₁ _ h₂ =>
    have hle₁ := h₁.length_le
    have hle₂ := h₂.length_le
    simp [Goal.least] at hle₁ hle₂ hr
    omega
  | choice _ h₁ h₂ _ h₃ =>
    have hle₁ := h₁.length_le
    have hle₂ := h₂.length_le
    have hle₃ := h₃.length_le
    simp [Goal.least] at hle₁ hle₂ hle₃ hr
    omega

/-- Only the empty statement is an expression that takes no token. -/
theorem Derives.expression_idle (h : Derives (.expression power) ts ns rest)
    (hr : rest.length = ts.length) : ∃ t us, ts = t :: us ∧ rest = ts ∧ t.kind = .semicolon := by
  cases h with
  | @expression _ t us ts₁ _ l n _ h₁ h₂ =>
    have hle₁ := h₁.length_le
    have hle₂ := h₂.length_le
    simp only [Goal.least, Nat.add_zero] at hle₁ hle₂
    obtain ⟨rfl, t', us', heq, ht⟩ := h₁.operand_idle (by omega)
    obtain ⟨rfl, rfl⟩ := List.cons.inj heq
    cases h₂ with
    | stop => exact ⟨t, us, rfl, rfl, ht⟩
    | more _ hc => simp [ht, continues] at hc

theorem Derives.statement_lt (h : Derives .statement ts ns rest) : rest.length < ts.length := by
  cases h with
  | terminated h₁ =>
    have := h₁.length_le
    simp only [Goal.least, List.length_cons] at this
    omega
  | unterminated h₁ hu =>
    have hle := h₁.length_le
    simp only [Goal.least, Nat.add_zero] at hle
    refine Nat.lt_of_le_of_ne hle fun heq => ?_
    obtain ⟨t, us, rfl, hrest, ht⟩ := h₁.expression_idle heq
    obtain ⟨rfl, -⟩ := List.cons.inj hrest
    exact hu ht

/-! ## The first token -/

/-- Whether a token of kind `k` can begin an operand. -/
def begins (power : Nat) : Token.Kind → Bool
  | .number _ | .string | .increment | .decrement | .identifier | .openPar | .openCurly => true
  | .semicolon => power == 0
  | k => k.unary?.isSome

theorem Derives.operand_begins (h : Derives (.operand power) ts ns rest) :
    ∃ t us, ts = t :: us ∧ begins power t.kind = true := by
  cases h with
  | number h | string h | parens h | braces h | nop h | constant h | name h =>
    exact ⟨_, _, rfl, by rw [h]; rfl⟩
  | prefixed h => exact ⟨_, _, rfl, by rcases h with h | h <;> (rw [h]; rfl)⟩
  | unary h =>
    refine ⟨_, _, rfl, ?_⟩
    unfold begins
    split <;> simp_all [Token.Kind.unary?]
  | breaking h | continuing h | bareReturn h | giveBack h | guarded h | choice h | whileLoop h
  | doLoop h => exact ⟨_, _, rfl, by rw [Token.kind_of_isWord h]; rfl⟩

theorem Derives.expression_begins (h : Derives (.expression power) ts ns rest) :
    ∃ t us, ts = t :: us ∧ begins power t.kind = true := by
  cases h with
  | expression _ h₁ => exact h₁.operand_begins

theorem Derives.statement_begins (h : Derives .statement ts ns rest) :
    ∃ t us, ts = t :: us ∧ begins 0 t.kind = true := by
  cases h with
  | terminated h₁ | unterminated h₁ => exact h₁.expression_begins

/-- No operand begins at the end of a text. -/
theorem isLast_of_begins {k : Token.Kind} (h : begins power k = true) : k.isLast = false := by
  cases k <;> first | rfl | cases h

end Parser

end Steppable
