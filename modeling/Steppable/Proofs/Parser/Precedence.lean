import Steppable.Proofs.Parser.Acceptance
import Steppable.Proofs.Token.Spelling

/-!
# Precedence and grouping

A formula is a tree of operators on names. Written with spaces between its tokens and with no more
parentheses than the operator levels demand, it is read as the tree it was (`precedence_respected`).
Everything rests on two numbers for each level: the power that the reader asks for on the right of an
operator (`Parser.edge`) has to fit the level from which on the writer leaves an operand bare, and it
has to keep the operator behind the whole formula from being taken into its last operand.
-/

namespace Steppable

/-! ## Formulas -/

/-- Whether the text is a name that is neither a keyword nor an operator, nor stands for a constant. -/
def isPlainName (s : String) : Bool :=
  Token.isWordText s.toList && Token.kindOfName s.toList == .identifier &&
    !Parser.keywords.contains s && (Parser.namedConstant? s).isNone

namespace Node

/-- Trees of operators on unbound names. -/
inductive Formula : Node → Prop
  | name {t : Tag} {s : String} : isPlainName s = true → Formula (.name t s)
  | binary {t : Tag} {op : BinaryOp} {l r : Node} :
      Formula l → Formula r → Formula (.binary t op l r)
  | unary {t : Tag} {op : UnaryOp} {n : Node} : Formula n → Formula (.unary t op n)
  /-- A sign of increment or decrement in front of a name. -/
  | adjust {t u : Tag} {increases : Bool} {s : String} :
      isPlainName s = true → Formula (.adjust t ⟨increases, true⟩ (.name u s))
  | ternary {t : Tag} {c a b : Node} :
      Formula c → Formula a → Formula b → Formula (.choice t true c a b)
  | assign {t u : Tag} {s : String} {v : Node} :
      isPlainName s = true → Formula v → Formula (.assign t (.name u s) v)

/-- The level of the outermost operator. A name binds most strongly. -/
def level : Node → Nat
  | binary _ op _ _ => (Token.Kind.binary op).level
  | unary .. | adjust .. => Token.Kind.not.level
  | choice .. => Token.Kind.questionMark.level
  | assign .. => Token.Kind.assign.level
  | _ => Token.Kind.dot.level

/-- The words of the operand `n` where only operators from the level `least` on can stand bare. -/
def enclosed (least : Nat) (n : Node) (words : List String) : List String :=
  if n.level < least then "(" :: words ++ [")"] else words

/-- The words of a formula. Arithmetic and comparisons group to the left; the connectives, the
conditional and the assignment group to the right; anything can stand between `?` and `:`. -/
@[simp]
def words : Node → List String
  | name _ s => [s]
  | binary _ op l r =>
    let k := (Token.Kind.binary op).level
    if op.isLogical then enclosed (k + 1) l l.words ++ op.symbol :: enclosed k r r.words
    else enclosed k l l.words ++ op.symbol :: enclosed (k + 1) r r.words
  | unary _ op n => op.symbol :: enclosed Token.Kind.not.level n n.words
  | adjust _ change n => change.symbol :: enclosed Token.Kind.not.level n n.words
  | choice _ _ c a b =>
    let k := Token.Kind.questionMark.level
    enclosed (k + 1) c c.words ++ "?" :: a.words ++ ":" :: enclosed k b b.words
  | assign _ t v => t.words ++ "=" :: enclosed Token.Kind.assign.level v v.words
  | _ => []

/-- The text of a formula: its words with spaces between them. -/
def formula (n : Node) : String :=
  joinWith " " n.words

end Node

namespace Token

variable {k : Kind} {rest : List Char}

/-! ## Words between spaces -/

/-- The words, each with a space before it. -/
def spaced (ws : List String) : List Char :=
  ws.flatMap fun w => ' ' :: w.toList

/-- Whether the text is empty or begins with a space. -/
def setOff : List Char → Bool
  | [] => true
  | c :: _ => c == ' '

theorem endsWord_of_setOff (h : setOff rest = true) : endsWord rest = true := by
  cases rest with
  | nil => rfl
  | cons c cs =>
    obtain rfl := eq_of_beq h
    rfl

theorem setOff_spaced (ws : List String) (h : setOff rest = true) :
    setOff (spaced ws ++ rest) = true := by
  cases ws with
  | nil => exact h
  | cons w ws => rfl

theorem spaced_cons (w : String) (ws : List String) (rest : List Char) :
    spaced (w :: ws) ++ rest = ' ' :: (w.toList ++ (spaced ws ++ rest)) := by
  simp [spaced]

theorem spaced_append (ws vs : List String) (rest : List Char) :
    spaced (ws ++ vs) ++ rest = spaced ws ++ (spaced vs ++ rest) := by
  simp [spaced]

theorem toList_joinWith (w : String) (ws : List String) :
    (joinWith " " (w :: ws)).toList = w.toList ++ spaced ws := by
  induction ws generalizing w with
  | nil => simp [joinWith, spaced]
  | cons v ws ih => simp [joinWith, ih, spaced]

/-- The space before a text does not matter. -/
theorem bareTokens_joinWith {ws : List String} (h : ws ≠ []) :
    bareTokens k (joinWith " " ws).toList = bareTokens k (spaced ws) := by
  obtain ⟨w, ws, rfl⟩ := List.exists_cons_of_ne_nil h
  have hs := spaced_cons w ws []
  rw [List.append_nil, List.append_nil] at hs
  rw [toList_joinWith, hs, bareTokens_blank rfl]

/-- A name between spaces. -/
theorem bareTokens_name {s : String} (hs : isPlainName s = true) (hr : setOff rest = true) :
    ∃ t : Token, t.kind = .identifier ∧ t.text = s ∧
      bareTokens k (' ' :: (s.toList ++ rest)) = t :: bareTokens .identifier rest := by
  simp only [isPlainName, Bool.and_eq_true, beq_iff_eq] at hs
  obtain ⟨⟨⟨hw, hk⟩, -⟩, -⟩ := hs
  refine ⟨word s.toList, (kind_word hw).trans hk, (text_word hw).trans (String.ofList_toList), ?_⟩
  rw [bareTokens_blank rfl, bareTokens_word hw (endsWord_of_setOff hr), kind_word hw, hk]

/-- A token between spaces that its kind determines. -/
theorem bareTokens_mark {j : Kind} {c : Char} {cs : List Char}
    (hs : scan k c cs = { kind := j, rest }) (hb : Text.isBlank c = false)
    (he : j.isError = false) (hc : j.isComment = false) :
    bareTokens k (' ' :: c :: cs) = mark j :: bareTokens j rest := by
  rw [bareTokens_blank rfl, bareTokens_of_scan hs hb he hc]
  rfl

theorem bareTokens_sign (op : UnaryOp) (hr : setOff rest = true) :
    ∃ t : Token, t.kind.unary? = some op ∧ t.kind.isLast = false ∧
      bareTokens k (' ' :: (op.symbol.toList ++ rest)) = t :: bareTokens t.kind rest := by
  have hword : ∀ cs, isWordText cs = true →
      bareTokens k (' ' :: (cs ++ rest)) = word cs :: bareTokens (word cs).kind rest := by
    intro cs h
    rw [bareTokens_blank rfl, bareTokens_word h (endsWord_of_setOff hr)]
  cases op with
  | typeOf => exact ⟨_, rfl, rfl, hword "typeof".toList rfl⟩
  | void => exact ⟨_, rfl, rfl, hword "void".toList rfl⟩
  | delete => exact ⟨_, rfl, rfl, hword "delete".toList rfl⟩
  | new => exact ⟨_, rfl, rfl, hword "new".toList rfl⟩
  | minus | plus | not | bitNot =>
    cases rest with
    | nil => exact ⟨_, rfl, rfl, bareTokens_mark rfl rfl rfl rfl⟩
    | cons c cs =>
      obtain rfl := eq_of_beq hr
      exact ⟨_, rfl, rfl, bareTokens_mark rfl rfl rfl rfl⟩

/-- The sign of an increment or decrement, whatever follows. -/
theorem bareTokens_change (change : Adjustment) : ∃ j : Kind, (j = .increment ∨ j = .decrement) ∧
    decide (j = .increment) = change.increases ∧
    ∀ k cs, bareTokens k (change.symbol.toList ++ cs) = mark j :: bareTokens j cs := by
  obtain ⟨increases, before⟩ := change
  cases increases with
  | true =>
    refine ⟨.increment, .inl rfl, rfl, fun k cs => ?_⟩
    rw [show (Adjustment.symbol ⟨true, before⟩).toList = ['+', '+'] by simp [Adjustment.symbol]]
    exact bareTokens_of_scan rfl rfl rfl rfl
  | false =>
    refine ⟨.decrement, .inr rfl, rfl, fun k cs => ?_⟩
    rw [show (Adjustment.symbol ⟨false, before⟩).toList = ['-', '-'] by simp [Adjustment.symbol]]
    exact bareTokens_of_scan rfl rfl rfl rfl

end Token

namespace Parser

open Node Token

variable {t : Node} {k : Token.Kind} {rest : List Char} {ts r : List Token} {power : Nat} {n : Node}

/-! ## Levels and powers -/

/-- The power that is asked for on the right of an operator of the level: one that groups to the right
takes another one of its own level there. -/
def edge (level : Nat) : Nat :=
  if level ≤ Token.Kind.level (.binary (.connective .and)) ∨ level = Token.Kind.level .not then
    2 * level - 1
  else 2 * level

/-- No operator that binds more strongly than `power` comes next. -/
def Ends (power : Nat) (ts : List Token) : Prop :=
  ∀ t us, ts = t :: us → ¬ (power < t.kind.precedence ∧ continues t.kind = true)

theorem edge_mono {l m : Nat} (h : l ≤ m) : edge l ≤ edge m := by
  simp only [edge, Token.Kind.level]
  grind

theorem edge_lt {l m : Nat} (h : l < m) : 2 * l ≤ edge m := by
  simp only [edge, Token.Kind.level]
  grind

theorem edge_lt_of_right {l : Nat}
    (h : l ≤ Token.Kind.level (.binary (.connective .and)) ∨ l = Token.Kind.level .not)
    (hl : 0 < l) : edge l < 2 * l := by
  rw [edge, if_pos h]
  omega

theorem Ends.mono {p q : Nat} (h : Ends p ts) (hpq : p ≤ q) : Ends q ts :=
  fun t us hts hq => h t us hts ⟨Nat.lt_of_le_of_lt hpq hq.1, hq.2⟩

theorem Ends.stop (h : Ends power ts) (hts : ts ≠ []) : Derives (.operations power n) ts [n] ts := by
  obtain ⟨t, us, rfl⟩ := List.exists_cons_of_ne_nil hts
  exact .stop (h t us rfl)

theorem ends_cons {u : Token} (h : u.kind.precedence ≤ power ∨ continues u.kind = false) :
    Ends power (u :: ts) := by
  intro t us hts hq
  obtain ⟨rfl, -⟩ := List.cons.inj hts
  rcases h with h | h
  · exact Nat.not_lt.2 h hq.1
  · exact Bool.false_ne_true (h.symm.trans hq.2)

theorem level_binary (op : BinaryOp) :
    Token.Kind.level .questionMark < (Token.Kind.binary op).level ∧
      (Token.Kind.binary op).level < Token.Kind.level .not := by
  cases op with
  | _ op => cases op <;> decide

/-- No formula needs parentheses where an assignment can stand bare. -/
theorem level_formula (h : t.Formula) : Token.Kind.level .assign ≤ t.level := by
  cases h with
  | @binary _ op => exact Nat.le_of_lt (Nat.lt_trans (by decide) (level_binary op).1)
  | name | unary | adjust | ternary | assign => exact Nat.le_of_ble_eq_true rfl

/-- The power asked for on the right of a binary operator. -/
theorem edge_binary (op : BinaryOp) :
    (if op.isLogical then rightPower (.binary op) else (Token.Kind.binary op).precedence) =
      edge (Token.Kind.binary op).level := by
  cases op with
  | _ op => cases op <;> rfl

/-! ## Formulas are read -/

/-- Wherever the words of the formula stand bare, it is read: no operator before it asks for more, and
none behind it is taken into its last operand. What follows it is read on. -/
def Legible (t : Node) : Prop :=
  ∀ ⦃power : Nat⦄ ⦃k : Token.Kind⦄ ⦃rest : List Char⦄ ⦃n : Node⦄ ⦃r : List Token⦄,
    setOff rest = true → power < 2 * t.level →
    Ends (edge t.level) (bareTokens .identifier rest) →
    Derives (.operations power t.shape) (bareTokens .identifier rest) [n] r →
    Derives (.expression power) (bareTokens k (spaced t.words ++ rest)) [n] r

/-- An operand is read, bare or in parentheses. -/
theorem Legible.enclosed (h : Legible t) (ht : t.Formula) {least : Nat} (hr : setOff rest = true)
    (hp : least ≤ t.level → power < 2 * t.level)
    (he : least ≤ t.level → Ends (edge t.level) (bareTokens .identifier rest))
    (hn : Derives (.operations power t.shape) (bareTokens .identifier rest) [n] r) :
    Derives (.expression power) (bareTokens k (spaced (enclosed least t t.words) ++ rest)) [n] r := by
  unfold Node.enclosed
  split
  · have hclose : ∀ j, bareTokens j (spaced [")"] ++ rest) =
        mark .closePar :: bareTokens .closePar rest := by
      intro j
      rw [spaced_cons]
      exact bareTokens_mark rfl rfl rfl rfl
    have hinner : Derives (.expression 0) (bareTokens .openPar (spaced t.words ++ (spaced [")"] ++ rest)))
        [t.shape] (mark .closePar :: bareTokens .closePar rest) := by
      have hlevel := level_formula ht
      refine h (setOff_spaced _ hr) (Nat.lt_of_lt_of_le (by decide) (Nat.mul_le_mul_left 2 hlevel)) ?_ ?_
      · rw [hclose]
        exact ends_cons (.inr rfl)
      · rw [hclose]
        exact .stop fun hc => by simp [mark, continues] at hc
    rw [List.cons_append, spaced_cons, spaced_append]
    have hopen : bareTokens k (' ' :: ("(".toList ++ (spaced t.words ++ (spaced [")"] ++ rest)))) =
        mark .openPar :: bareTokens .openPar (spaced t.words ++ (spaced [")"] ++ rest)) :=
      bareTokens_mark rfl rfl rfl rfl
    rw [hopen]
    rw [bareTokens_congr (k := .identifier) (show _ = endsOperand .closePar from rfl)] at hn
    exact .expression rfl (.parens rfl hinner rfl) hn
  · rename_i hlevel
    have hle := Nat.le_of_not_lt hlevel
    exact h hr (hp hle) (he hle) hn

theorem legible_name {u : Tag} {s : String} (hs : isPlainName s = true) :
    Legible (.name u s) := by
  intro power k rest n r hr _ _ hn
  obtain ⟨t, ht, rfl, htokens⟩ := bareTokens_name (k := k) hs hr
  simp only [isPlainName, Bool.and_eq_true, Bool.not_eq_true', Option.isNone_iff_eq_none,
    List.contains_eq_mem, decide_eq_false_iff_not] at hs
  have hleaf : Derives (.operand power) (t :: bareTokens .identifier rest) [.name {} t.text]
      (bareTokens .identifier rest) := .name ht hs.2 hs.1.2
  rw [Node.words, spaced_cons]
  show Derives _ (bareTokens k (' ' :: (t.text.toList ++ rest))) _ _
  rw [htokens]
  exact .expression (by rw [ht]; rfl) hleaf hn

/-- The right operand of an operator is read and nothing behind it is taken into it. -/
theorem Legible.last (h : Legible t) (ht : t.Formula) {level least : Nat}
    (hr : setOff rest = true) (he : Ends (edge level) (bareTokens .identifier rest))
    (hlevel : edge level < 2 * least) (hedge : edge level ≤ edge least) :
    Derives (.expression (edge level)) (bareTokens k (spaced (Node.enclosed least t t.words) ++ rest))
      [t.shape] (bareTokens .identifier rest) := by
  refine h.enclosed ht hr (fun hl => ?_) (fun hl => ?_) ?_
  · exact Nat.lt_of_lt_of_le hlevel (Nat.mul_le_mul_left 2 hl)
  · exact he.mono (Nat.le_trans hedge (edge_mono hl))
  · exact he.stop (bareTokens_proper _ _).ne_nil

/-- The left operand of an operator is read and goes on as the operand of the operator. -/
theorem Legible.first (h : Legible t) (ht : t.Formula) {least : Nat} {u : Token} {us : List Token}
    (hrest : bareTokens .identifier (' ' :: rest) = u :: us)
    (hlevel : power < 2 * least) (hedge : u.kind.precedence ≤ edge least)
    (hn : Derives (.operations power t.shape) (u :: us) [n] r) :
    Derives (.expression power)
      (bareTokens k (spaced (Node.enclosed least t t.words) ++ ' ' :: rest)) [n] r := by
  refine h.enclosed ht rfl (fun hl => ?_) (fun hl => ?_) ?_
  · exact Nat.lt_of_lt_of_le hlevel (Nat.mul_le_mul_left 2 hl)
  · rw [hrest]
    exact ends_cons (.inl (Nat.le_trans hedge (edge_mono hl)))
  · rw [hrest]
    exact hn

theorem words_ne_nil (h : t.Formula) : t.words ≠ [] := by
  cases h with
  | @binary _ op => simp only [words]; split <;> simp
  | _ => simp [words]

theorem enclosed_ne_nil (h : t.Formula) (least : Nat) : Node.enclosed least t t.words ≠ [] := by
  unfold Node.enclosed
  split
  · simp
  · exact words_ne_nil h

/-- The levels from which on the operands of a binary operator stand bare. -/
theorem words_binary (u : Tag) (op : BinaryOp) (l m : Node) : ∃ left right,
    (Node.binary u op l m).words =
      Node.enclosed left l l.words ++ op.symbol :: Node.enclosed right m m.words ∧
    (Token.Kind.binary op).level ≤ left ∧ (Token.Kind.binary op).precedence ≤ edge left ∧
    edge (Token.Kind.binary op).level < 2 * right ∧
    edge (Token.Kind.binary op).level ≤ edge right := by
  rw [words]
  split
  · refine ⟨_, _, rfl, Nat.le_succ _, edge_lt (Nat.lt_succ_self _), ?_, Nat.le_refl _⟩
    cases op with
    | _ op => cases op <;> first | decide | contradiction
  · refine ⟨_, _, rfl, Nat.le_refl _, ?_, ?_, edge_mono (Nat.le_succ _)⟩ <;>
    · cases op with
      | _ op => cases op <;> first | decide | contradiction

theorem legible_binary {u : Tag} {op : BinaryOp} {l m : Node} (hl : l.Formula) (hm : m.Formula)
    (ihl : Legible l) (ihm : Legible m) : Legible (.binary u op l m) := by
  intro power k rest n r hr hp he hn
  obtain ⟨left, right, hwords, hleft, hleft', hright, hright'⟩ := words_binary u op l m
  obtain ⟨t, ht, htoken⟩ : ∃ t : Token, t.kind = .binary op ∧ bareTokens .identifier
      (' ' :: (op.symbol.toList ++ (spaced (Node.enclosed right m m.words) ++ rest))) =
        t :: bareTokens (.binary op) (spaced (Node.enclosed right m m.words) ++ rest) := by
    obtain ⟨v, vs, hv⟩ := List.exists_cons_of_ne_nil (enclosed_ne_nil hm right)
    obtain ⟨t, ht, htokens⟩ := bareTokens_binary (k := .identifier) op rfl
      (v.toList ++ (spaced vs ++ rest))
    refine ⟨t, ht, ?_⟩
    rw [hv, spaced_cons, bareTokens_blank rfl, htokens, bareTokens_blank (k := .binary op) rfl]
  rw [hwords, spaced_append, spaced_cons]
  refine ihl.first hl htoken ?_ (by rwa [ht]) ?_
  · exact Nat.lt_of_lt_of_le hp (Nat.mul_le_mul_left 2 hleft)
  · refine .more (by rwa [ht]) (by rw [ht]; rfl) (.binary ht ?_) hn
    rw [ht, edge_binary]
    exact ihm.last hm hr he hright hright'

theorem legible_unary {u : Tag} {op : UnaryOp} {m : Node} (hm : m.Formula) (ih : Legible m) :
    Legible (.unary u op m) := by
  intro power k rest n r hr _ he hn
  obtain ⟨t, ht, hl, htoken⟩ := bareTokens_sign (k := k) op
    (setOff_spaced (Node.enclosed (Token.Kind.level .not) m m.words) hr)
  rw [words, spaced_cons, htoken]
  have hoperand := ih.last (k := t.kind) hm hr he (edge_lt_of_right (l := Token.Kind.level .not) (.inr rfl) (by decide))
    (Nat.le_refl _)
  exact .expression hl (.unary ht hoperand) hn

theorem legible_adjust {u v : Tag} {increases : Bool} {s : String} (hs : isPlainName s = true) :
    Legible (.adjust u ⟨increases, true⟩ (.name v s)) := by
  intro power k rest n r hr _ he hn
  obtain ⟨j, hj, hincreases, htoken⟩ := bareTokens_change ⟨increases, true⟩
  rw [words, spaced_cons, bareTokens_blank rfl, htoken]
  have hoperand := (legible_name (u := v) hs).last (k := j) (.name hs) hr he
    (edge_lt_of_right (l := Token.Kind.level .not) (.inr rfl) (by decide)) (Nat.le_refl _)
  refine .expression ?_ (.prefixed (t := mark j) hj hoperand rfl) ?_
  · rcases hj with rfl | rfl <;> rfl
  · rw [show decide ((mark j).kind = .increment) = increases from hincreases]
    exact hn

theorem legible_ternary {u : Tag} {c a b : Node} (hc : c.Formula) (ha : a.Formula) (hb : b.Formula)
    (ihc : Legible c) (iha : Legible a) (ihb : Legible b) : Legible (.choice u true c a b) := by
  intro power k rest n r hr hp he hn
  have hcolon : ∀ j, bareTokens j
      (spaced (":" :: Node.enclosed (Token.Kind.level .questionMark) b b.words) ++ rest) =
      mark .colon :: bareTokens .colon
        (spaced (Node.enclosed (Token.Kind.level .questionMark) b b.words) ++ rest) := by
    intro j
    rw [spaced_cons]
    exact bareTokens_mark rfl rfl rfl rfl
  -- Between the two signs anything is read up to the colon.
  have hmiddle := @iha (rightPower .assign) .questionMark _ a.shape _
    (setOff_spaced (":" :: Node.enclosed (Token.Kind.level .questionMark) b b.words) hr)
    (Nat.lt_of_lt_of_le (by decide) (Nat.mul_le_mul_left 2 (level_formula ha)))
    (by rw [hcolon]; exact ends_cons (.inr rfl))
    (by rw [hcolon]; exact .stop fun hc => by simp [mark, continues] at hc)
  have hlast := ihb.last (k := .colon) hb hr he
    (edge_lt_of_right (l := Token.Kind.level .questionMark) (.inl (by decide)) (by decide)) (Nat.le_refl _)
  rw [words, spaced_append, spaced_append, spaced_cons]
  refine ihc.first hc (bareTokens_mark rfl rfl rfl rfl) (Nat.lt_trans hp (Nat.lt_add_of_pos_right (by decide)))
    (edge_lt (Nat.lt_succ_self _)) ?_
  exact .more hp rfl (.ternary rfl hmiddle rfl hlast) hn

theorem legible_assign {u w : Tag} {s : String} {v : Node} (hs : isPlainName s = true)
    (hv : v.Formula) (ih : Legible v) : Legible (.assign u (.name w s) v) := by
  intro power k rest n r hr hp he hn
  have hlast := ih.last (k := .assign) hv hr he (edge_lt_of_right (l := Token.Kind.level .assign) (.inl (by decide)) (by decide))
    (Nat.le_refl _)
  rw [words, spaced_append, spaced_cons]
  have hassign : bareTokens .identifier
      (' ' :: ("=".toList ++ (spaced (Node.enclosed (Token.Kind.level .assign) v v.words) ++ rest))) =
      mark .assign ::
        bareTokens .assign (spaced (Node.enclosed (Token.Kind.level .assign) v v.words) ++ rest) := by
    obtain ⟨x, xs, hx⟩ := List.exists_cons_of_ne_nil (enclosed_ne_nil hv (Token.Kind.level .assign))
    rw [hx, spaced_cons]
    exact bareTokens_mark rfl rfl rfl rfl
  refine legible_name hs rfl ?_ ?_ ?_
  · exact Nat.lt_trans hp (show 2 * Token.Kind.level .assign < 2 * Token.Kind.level .dot by decide)
  · rw [hassign]
    exact ends_cons (.inl (show 4 ≤ edge (Token.Kind.level .dot) by decide))
  · rw [hassign]
    exact .more hp rfl (.assign rfl rfl hlast) hn

/-- **Every formula is read from its words.** -/
theorem legible (h : t.Formula) : Legible t := by
  induction h with
  | name hs => exact legible_name hs
  | binary hl hm ihl ihm => exact legible_binary hl hm ihl ihm
  | unary hm ih => exact legible_unary hm ih
  | adjust hs => exact legible_adjust hs
  | ternary hc ha hb ihc iha ihb => exact legible_ternary hc ha hb ihc iha ihb
  | assign hs hv ih => exact legible_assign hs hv ih

/-- **Precedence and grouping are respected.** A formula written with no more parentheses than the
operator levels demand is read without an error, and as the tree it was. -/
theorem precedence_respected (h : t.Formula) :
    accepts t.formula = true ∧ (treeOf t.formula).shape = t.shape := by
  have htokens : tokensOf t.formula = bareTokens .none (spaced t.words ++ []) := by
    rw [List.append_nil]
    exact bareTokens_joinWith (words_ne_nil h)
  have hlevel := level_formula h
  have hend : Ends 0 [ending] := ends_cons (.inr rfl)
  have hread : Derives (.expression 0) (tokensOf t.formula) [t.shape] [ending] := by
    rw [htokens]
    apply legible h rfl
    · exact Nat.lt_of_lt_of_le (by decide) (Nat.mul_le_mul_left 2 hlevel)
    · exact hend.mono (Nat.zero_le _)
    · exact hend.stop (by simp)
  have hspells := spells_of_expression rfl hread
  exact ⟨(accepts_of_spells hspells (by simp)).1, treeOf_of_spells hspells (by simp)⟩

/-- An assignment and a difference as operands of a difference, in an assigned conditional. -/
def mixed : Node :=
  .assign {} (.name {} "a") (.choice {} true
    (.binary {} (.arith .minus)
      (.binary {} (.arith .minus) (.assign {} (.name {} "b") (.name {} "c"))
        (.unary {} .minus (.name {} "d")))
      (.binary {} (.arith .minus) (.name {} "e") (.name {} "f")))
    (.name {} "g") (.name {} "h"))

theorem precedence_respected_mixed :
    accepts "a = ( b = c ) - - d - ( e - f ) ? g : h" = true ∧
    (treeOf "a = ( b = c ) - - d - ( e - f ) ? g : h").shape = mixed := by
  have h : mixed.Formula :=
    .assign rfl (.ternary
      (.binary (.binary (.assign rfl (.name rfl)) (.unary (.name rfl)))
        (.binary (.name rfl) (.name rfl)))
      (.name rfl) (.name rfl))
  have hread := precedence_respected h
  have htext : mixed.formula = "a = ( b = c ) - - d - ( e - f ) ? g : h" := by decide +kernel
  rw [htext] at hread
  exact hread

end Parser

end Steppable
