import Steppable.Proofs.Parser.Diagnosis
import Steppable.Proofs.Parser.Precedence

/-!
# Reading what is printed

Statements as operands and numbers before a dot are lost when a tree is printed and read again
(`Printing.lean`). Trees of expressions are not: `expressions_reread` says that the text of such a
tree is read to its end, without an error and as the tree that was printed. Every operation is printed
in parentheses, so wherever a part stands, what is behind it only has to end its last word and must
not bind more strongly than an accessor.

The words `NaN` and `Infinity` are not names: they are scanned as numbers, behind a dot too.
-/

namespace Steppable

namespace Node

def isNumber : Node → Bool
  | constant _ (.number _) => true
  | _ => false

/-- The trees of expressions whose words are scanned as what they are. -/
inductive Expression : Node → Prop
  | undefined {t : Tag} : Expression (.constant t .undefined)
  | null {t : Tag} : Expression (.constant t .null)
  | boolean {t : Tag} {b : Bool} : Expression (.constant t (.boolean b))
  | string {t : Tag} {s : String} : Expression (.constant t (.string s))
  /-- A number that is not negative and is scanned from its text. -/
  | number {t : Tag} {x : Float} :
      ¬ x < 0 → Token.spellsNumber x (Numeric.text x).toList = true →
      Expression (.constant t (.number x))
  | name {t : Tag} {s : String} : isPlainName s = true → Expression (.name t s)
  | member {t : Tag} {l : Node} {s : String} :
      Expression l → l.isNumber = false →
      Token.isWordText s.toList = true → Token.kindOfName s.toList = .identifier →
      Expression (.member t l s)
  | index {t : Tag} {l i : Node} : Expression l → Expression i → Expression (.index t l i)
  | call {t : Tag} {l : Node} {as : List Node} :
      Expression l → (∀ a ∈ as, Expression a) → Expression (.call t l as)
  | binary {t : Tag} {op : BinaryOp} {l r : Node} :
      Expression l → Expression r → Expression (.binary t op l r)
  | unary {t : Tag} {op : UnaryOp} {n : Node} : Expression n → Expression (.unary t op n)
  | ternary {t : Tag} {c a b : Node} :
      Expression c → Expression a → Expression b → Expression (.choice t true c a b)
  | adjust {t : Tag} {change : Adjustment} {n : Node} :
      Expression n → n.isAccessor = true → Expression (.adjust t change n)
  | assign {t : Tag} {target v : Node} :
      Expression target → target.isAccessor = true → Expression v →
      Expression (.assign t target v)

end Node

namespace Parser

open Node Token

variable {k : Token.Kind} {rest cs : List Char} {ts r : List Token} {power : Nat} {n m : Node}

/-! ## A word that is a number -/

/-- Behind a dot the word `NaN` is a number, so this member is printed as a text that is not read. -/
theorem number_word_member_lost :
    isWordText "NaN".toList = true ∧ (kindOfName "NaN".toList).unary? = none ∧
    (kindOfName "NaN".toList).binary? = none ∧
    (Node.member {} (.constant {} .null) "NaN").text = "null.NaN" ∧ accepts "null.NaN" = false := by
  decide +kernel

/-! ## What stands behind a part -/

/-- The text behind the part ends its last word. -/
def Stopped (n : Node) (rest : List Char) : Prop :=
  (if n.isNumber then endsNumber rest else endsWord rest) = true

theorem stopped_of_delimiter {d : Char} (hd : isDelimiter d = true) : Stopped n (d :: rest) := by
  unfold Stopped
  split
  · exact hd
  · exact @endsWord_of_endsNumber (d :: rest) hd

/-- The printed part is read wherever it stands, and what is behind it is read on. -/
def Reread (n : Node) : Prop :=
  ∀ ⦃power : Nat⦄ ⦃k : Token.Kind⦄ ⦃rest : List Char⦄ ⦃m : Node⦄ ⦃r : List Token⦄,
    power < Token.Kind.precedence .dot → Stopped n rest →
    Derives (.operations power n.shape) (bareTokens .identifier rest) [m] r →
    Derives (.expression power) (bareTokens k (n.text.toList ++ rest)) [m] r

/-- Nothing of what stands behind belongs to the part. -/
theorem Reread.whole (h : Reread n) {d : Char} (hp : power < Token.Kind.precedence .dot)
    (hd : isDelimiter d = true) (he : Ends power (bareTokens .identifier (d :: rest))) :
    Derives (.expression power) (bareTokens k (n.text.toList ++ d :: rest)) [n.shape]
      (bareTokens .identifier (d :: rest)) :=
  h hp (stopped_of_delimiter hd) (he.stop (bareTokens_proper _ _).ne_nil)

theorem bareTokens_close (k : Token.Kind) (rest : List Char) :
    bareTokens k (')' :: rest) = mark .closePar :: bareTokens .closePar rest :=
  bareTokens_of_scan rfl rfl rfl rfl

theorem ends_close (power : Nat) (k : Token.Kind) (rest : List Char) :
    Ends power (bareTokens k (')' :: rest)) := by
  rw [bareTokens_close]
  exact ends_cons (.inr rfl)

/-- What stands in parentheses is read, whatever is behind them. -/
theorem derives_parens (hinner : Derives (.expression 0) (bareTokens .openPar (cs ++ ')' :: rest)) [n]
      (bareTokens .identifier (')' :: rest)))
    (hn : Derives (.operations power n) (bareTokens .identifier rest) [m] r) :
    Derives (.expression power) (bareTokens k ('(' :: cs ++ ')' :: rest)) [m] r := by
  have hopen : bareTokens k ('(' :: cs ++ ')' :: rest) =
      mark .openPar :: bareTokens .openPar (cs ++ ')' :: rest) := bareTokens_of_scan rfl rfl rfl rfl
  rw [bareTokens_close] at hinner
  rw [hopen]
  rw [bareTokens_congr (k := .identifier) (show _ = endsOperand .closePar from rfl)] at hn
  exact .expression rfl (.parens rfl hinner rfl) hn

/-! ## Leaves -/

theorem endsWord_of_stopped (h : Stopped n rest) : endsWord rest = true := by
  unfold Stopped at h
  split at h
  · exact endsWord_of_endsNumber h
  · exact h

/-- A word that is a name for the scanner is read by what it stands for. -/
theorem reread_word (hw : isWordText cs = true) (hk : kindOfName cs = .identifier)
    (ht : n.text.toList = cs)
    (hn : ∀ t ts, t.kind = .identifier → t.text = String.ofList cs →
      ∀ power, Derives (.operand power) (t :: ts) [n.shape] ts) : Reread n := by
  intro power k rest m r _ hr hm
  rw [ht, bareTokens_word hw (endsWord_of_stopped hr), kind_word hw, hk]
  have hword : (word cs).kind = .identifier := (kind_word hw).trans hk
  exact .expression (by rw [hword]; rfl) (hn _ _ hword (text_word hw) power) hm

/-- A constant with a name is read as that constant. -/
theorem reread_named {t : Tag} {v : Value} (hv : namedConstant? v.text = some v)
    (ht : (Node.constant t v).text = v.text) (hw : isWordText v.text.toList = true)
    (hk : kindOfName v.text.toList = .identifier) : Reread (.constant t v) := by
  refine reread_word hw hk (by rw [ht]) fun u ts hu hs power => ?_
  exact .constant hu (by rw [hs, String.ofList_toList, hv])

theorem reread_string (t : Tag) (s : String) : Reread (.constant t (.string s)) := by
  intro power k rest m r _ _ hm
  rw [bareTokens_congr (k := .identifier) (show _ = endsOperand .string from rfl)] at hm
  rw [Node.text, bareTokens_quote]
  exact .expression rfl (.string rfl) hm

theorem reread_number {t : Tag} {x : Float} (hx : ¬ x < 0)
    (hs : spellsNumber x (Numeric.text x).toList = true) : Reread (.constant t (.number x)) := by
  intro power k rest m r _ hr hm
  obtain ⟨u, form, hu, rfl, htokens⟩ := bareTokens_number (k := k) hs hr
  have htext : (Node.constant t (.number u.number)).text = Numeric.text u.number := if_neg hx
  rw [htext, htokens]
  rw [bareTokens_congr (k := .identifier) (show _ = endsOperand u.kind by rw [hu]; rfl)] at hm
  exact .expression (by rw [hu]; rfl) (.number hu) hm

theorem reread_name {t : Tag} {s : String} (hs : isPlainName s = true) : Reread (.name t s) := by
  simp only [isPlainName, Bool.and_eq_true, beq_iff_eq, Bool.not_eq_true', Option.isNone_iff_eq_none,
    List.contains_eq_mem, decide_eq_false_iff_not] at hs
  obtain ⟨⟨⟨hw, hk⟩, hword⟩, hconst⟩ := hs
  refine reread_word hw hk rfl fun u ts hu hus power => ?_
  rw [String.ofList_toList] at hus
  subst hus
  exact .name hu hconst hword

/-! ## Accessors -/

section Accessors

variable {l i : Node} {t : Tag}

theorem reread_member {s : String} (hl : l.isNumber = false) (hw : isWordText s.toList = true)
    (hk : kindOfName s.toList = .identifier) (ih : Reread l) : Reread (.member t l s) := by
  intro power k rest m r hp hr hm
  have hdigit : nextIs Char.isDigit (s.toList ++ rest) = false := by
    cases hs : s.toList with
    | nil => simp [hs, isWordText] at hw
    | cons c cs =>
      simp only [hs, isWordText, Bool.and_eq_true] at hw
      exact isDigit_of_isNameStart hw.1
  have hdot : bareTokens .identifier ('.' :: (s.toList ++ rest)) =
      mark .dot :: word s.toList :: bareTokens .identifier rest := by
    have hscan : scan .identifier '.' (s.toList ++ rest) =
        { kind := .dot, rest := s.toList ++ rest } := if_neg (by simp [hdigit])
    rw [bareTokens_of_scan hscan rfl rfl rfl, bareTokens_word hw (endsWord_of_stopped hr), kind_word hw, hk]
    rfl
  have htext : (Node.member t l s).text.toList ++ rest = l.text.toList ++ '.' :: (s.toList ++ rest) := by
    simp [Node.text]
  have hstop : Stopped l ('.' :: (s.toList ++ rest)) := by
    simp [Stopped, hl, endsWord, nextIs, isNamePart, isNameStart]
  rw [htext]
  apply ih hp hstop
  rw [hdot]
  refine .more hp rfl (.member rfl ((kind_word hw).trans hk)) ?_
  rw [text_word hw, String.ofList_toList]
  exact hm

theorem reread_index (ih : Reread l) (ihi : Reread i) : Reread (.index t l i) := by
  intro power k rest m r hp hr hm
  have hclose : bareTokens .identifier (']' :: rest) = mark .closeSquare :: bareTokens .closeSquare rest :=
    bareTokens_of_scan rfl rfl rfl rfl
  have hinner : Derives (.expression 0) (bareTokens .openSquare (i.text.toList ++ ']' :: rest))
      [i.shape] (bareTokens .identifier (']' :: rest)) :=
    ihi.whole (by decide) (by decide) (by rw [hclose]; exact ends_cons (.inr rfl))
  have hopen : bareTokens .identifier ('[' :: (i.text.toList ++ ']' :: rest)) =
      mark .openSquare :: bareTokens .openSquare (i.text.toList ++ ']' :: rest) := bareTokens_of_scan rfl rfl rfl rfl
  have htext : (Node.index t l i).text.toList ++ rest =
      l.text.toList ++ '[' :: (i.text.toList ++ ']' :: rest) := by
    simp [Node.text]
  rw [htext]
  apply ih hp (stopped_of_delimiter (by decide))
  rw [hopen]
  rw [hclose] at hinner
  refine .more hp rfl (.index rfl hinner rfl) ?_
  rwa [bareTokens_congr (k := .identifier) (show _ = endsOperand .closeSquare from rfl)] at hm

/-- No argument begins with a closing parenthesis. -/
theorem argumentList_ne_close {ns : List Node} (h : Derives .argumentList ts ns r) :
    ∃ u us, ts = u :: us ∧ u.kind ≠ .closePar := by
  cases h with
  | lastArgument h | nextArgument h =>
    obtain ⟨u, us, rfl, hu⟩ := h.expression_begins
    refine ⟨u, us, rfl, fun hk => ?_⟩
    rw [hk] at hu
    cases hu

theorem derives_arguments {as : List Node} (hne : as ≠ []) (ih : ∀ a ∈ as, Reread a) :
    Derives .argumentList (bareTokens k ((joinWith ", " (texts as)).toList ++ ')' :: rest))
      (shapes as) (bareTokens .identifier (')' :: rest)) := by
  induction as generalizing k with
  | nil => exact (hne rfl).elim
  | cons a as iha =>
    have ha := ih a (List.mem_cons_self ..)
    cases as with
    | nil =>
      have hlast : Derives (.expression argumentPower) (bareTokens k (a.text.toList ++ ')' :: rest))
          [a.shape] (bareTokens .identifier (')' :: rest)) :=
        ha.whole (by decide) (by decide) (ends_close _ _ _)
      rw [bareTokens_close] at hlast ⊢
      exact .lastArgument hlast (by simp [mark])
    | cons b bs =>
      have htail := iha (k := .comma) (by simp) fun c hc => ih c (List.mem_cons_of_mem _ hc)
      have hcomma : bareTokens .identifier
          (',' :: ' ' :: ((joinWith ", " (texts (b :: bs))).toList ++ ')' :: rest)) =
          mark .comma :: bareTokens .comma ((joinWith ", " (texts (b :: bs))).toList ++ ')' :: rest) := by
        rw [bareTokens_of_scan (s := { kind := .comma, rest := _ }) rfl rfl rfl rfl, bareTokens_blank rfl]
        rfl
      have htext : (joinWith ", " (texts (a :: b :: bs))).toList ++ ')' :: rest =
          a.text.toList ++ ',' :: ' ' :: ((joinWith ", " (texts (b :: bs))).toList ++ ')' :: rest) := by
        simp [texts, joinWith]
      have hfirst : Derives (.expression argumentPower) (bareTokens k (a.text.toList ++
          ',' :: ' ' :: ((joinWith ", " (texts (b :: bs))).toList ++ ')' :: rest))) [a.shape]
          (bareTokens .identifier
            (',' :: ' ' :: ((joinWith ", " (texts (b :: bs))).toList ++ ')' :: rest))) :=
        ha.whole (by decide) (by decide) (by rw [hcomma]; exact ends_cons (.inr rfl))
      rw [htext]
      rw [hcomma] at hfirst
      exact .nextArgument hfirst rfl htail

theorem reread_call {as : List Node} (ih : Reread l) (iha : ∀ a ∈ as, Reread a) :
    Reread (.call t l as) := by
  intro power k rest m r hp hr hm
  have hopen : ∀ cs, bareTokens .identifier ('(' :: cs) = mark .openPar :: bareTokens .openPar cs :=
    fun cs => bareTokens_of_scan rfl rfl rfl rfl
  have htext : (Node.call t l as).text.toList ++ rest =
      l.text.toList ++ '(' :: ((joinWith ", " (texts as)).toList ++ ')' :: rest) := by
    simp [Node.text]
  have hargs : Derives .arguments (bareTokens .openPar ((joinWith ", " (texts as)).toList ++ ')' :: rest))
      (shapes as) (bareTokens .closePar rest) := by
    cases as with
    | nil =>
      show Derives _ (bareTokens _ (')' :: rest)) _ _
      rw [bareTokens_close]
      exact .noArguments rfl
    | cons a as =>
      have hlist : Derives .argumentList
          (bareTokens .openPar ((joinWith ", " (texts (a :: as))).toList ++ ')' :: rest))
          (shapes (a :: as)) (bareTokens .identifier (')' :: rest)) :=
        derives_arguments (by simp) iha
      obtain ⟨u, us, hus, hu⟩ := argumentList_ne_close hlist
      rw [hus] at hlist ⊢
      rw [bareTokens_close] at hlist
      exact .someArguments hu hlist rfl
  rw [htext]
  apply ih hp (stopped_of_delimiter (by decide))
  rw [hopen]
  refine .more hp rfl (.call rfl hargs) ?_
  rwa [bareTokens_congr (k := .identifier) (show _ = endsOperand .closePar from rfl)] at hm

end Accessors

/-! ## Operations -/

section Operations

variable {t : Tag} {l : Node}

/-- An operation in parentheses is read wherever it stands. -/
theorem reread_parens (cs : List Char) (ht : n.text.toList = '(' :: cs ++ [')'])
    (h : ∀ rest, Derives (.expression 0) (bareTokens .openPar (cs ++ ')' :: rest)) [n.shape]
      (bareTokens .identifier (')' :: rest))) : Reread n := by
  intro power k rest m r _ _ hm
  rw [ht, List.append_assoc]
  exact derives_parens (h rest) hm

theorem reread_binary {op : BinaryOp} (ih : Reread l) (ihm : Reread m) :
    Reread (.binary t op l m) := by
  refine reread_parens (l.text.toList ++ ' ' :: (op.symbol.toList ++ ' ' :: m.text.toList))
    (by simp [Node.text]) fun rest => ?_
  obtain ⟨u, hu, hop⟩ := bareTokens_binary (k := .identifier) op rfl (m.text.toList ++ ')' :: rest)
  have hright : Derives (.expression (if op.isLogical then rightPower u.kind else u.kind.precedence))
      (bareTokens (.binary op) (m.text.toList ++ ')' :: rest)) [m.shape]
      (bareTokens .identifier (')' :: rest)) := by
    refine ihm.whole ?_ (by decide) (ends_close _ _ _)
    rw [hu, edge_binary]
    exact Nat.lt_of_le_of_lt (edge_mono (Nat.le_of_lt (level_binary op).2)) (by decide)
  have htext : (l.text.toList ++ ' ' :: (op.symbol.toList ++ ' ' :: m.text.toList)) ++ ')' :: rest =
      l.text.toList ++ ' ' :: (op.symbol.toList ++ ' ' :: (m.text.toList ++ ')' :: rest)) := by
    simp
  rw [htext]
  apply ih (by decide) (stopped_of_delimiter (by decide))
  rw [bareTokens_blank rfl, hop]
  refine .more ?_ (by rw [hu]; rfl) (.binary hu hright) ?_
  · rw [hu]
    exact Nat.mul_pos (by decide) (Nat.lt_of_le_of_lt (Nat.zero_le _) (level_binary op).1)
  · exact (ends_close 0 _ _).stop (bareTokens_proper _ _).ne_nil

theorem reread_unary {op : UnaryOp} (ih : Reread n)
    (hc : ∀ rest, nextIs extendsSign (n.text.toList ++ rest) = false) : Reread (.unary t op n) := by
  refine reread_parens (op.lead.toList ++ n.text.toList) (by simp [Node.text]) fun rest => ?_
  obtain ⟨u, hu, hl, htokens⟩ := bareTokens_unary (k := .openPar) op (hc (')' :: rest))
  rw [List.append_assoc, htokens]
  have hoperand : Derives (.expression unaryPower) (bareTokens u.kind (n.text.toList ++ ')' :: rest))
      [n.shape] (bareTokens .identifier (')' :: rest)) :=
    ih.whole (by decide) (by decide) (ends_close _ _ _)
  exact .expression hl (.unary hu hoperand) ((ends_close 0 _ _).stop (bareTokens_proper _ _).ne_nil)

theorem reread_ternary {c a b : Node} (ihc : Reread c) (iha : Reread a) (ihb : Reread b) :
    Reread (.choice t true c a b) := by
  refine reread_parens
    (c.text.toList ++ ' ' :: '?' :: ' ' :: (a.text.toList ++ ' ' :: ':' :: ' ' :: b.text.toList))
    (by simp [Node.text]) fun rest => ?_
  have hcolon : bareTokens .identifier (' ' :: ':' :: ' ' :: (b.text.toList ++ ')' :: rest)) =
      mark .colon :: bareTokens .colon (b.text.toList ++ ')' :: rest) := by
    rw [bareTokens_mark (j := .colon) rfl rfl rfl rfl, bareTokens_blank rfl]
  have hquestion : ∀ cs, bareTokens .identifier (' ' :: '?' :: ' ' :: cs) =
      mark .questionMark :: bareTokens .questionMark cs := by
    intro cs
    rw [bareTokens_mark (j := .questionMark) rfl rfl rfl rfl, bareTokens_blank rfl]
  have hmiddle : Derives (.expression (rightPower .assign)) (bareTokens .questionMark
      (a.text.toList ++ ' ' :: ':' :: ' ' :: (b.text.toList ++ ')' :: rest))) [a.shape]
      (bareTokens .identifier (' ' :: ':' :: ' ' :: (b.text.toList ++ ')' :: rest))) :=
    iha.whole (by decide) (by decide) (by rw [hcolon]; exact ends_cons (.inr rfl))
  have hlast : Derives (.expression (rightPower .questionMark))
      (bareTokens .colon (b.text.toList ++ ')' :: rest)) [b.shape]
      (bareTokens .identifier (')' :: rest)) :=
    ihb.whole (by decide) (by decide) (ends_close _ _ _)
  simp only [List.append_assoc, List.cons_append]
  apply ihc (by decide) (stopped_of_delimiter (by decide))
  rw [hquestion]
  rw [hcolon] at hmiddle
  refine .more (by decide) rfl (.ternary rfl hmiddle rfl hlast) ?_
  exact (ends_close 0 _ _).stop (bareTokens_proper _ _).ne_nil

theorem reread_prefixed {increases : Bool} (ih : Reread n) (hn : n.isAssignable = true) :
    Reread (.adjust t ⟨increases, true⟩ n) := by
  refine reread_parens ((Adjustment.symbol ⟨increases, true⟩).toList ++ n.text.toList)
    (by simp [Node.text]) fun rest => ?_
  obtain ⟨j, hj, rfl, htoken⟩ := bareTokens_change ⟨increases, true⟩
  have hoperand : Derives (.expression unaryPower) (bareTokens j (n.text.toList ++ ')' :: rest))
      [n.shape] (bareTokens .identifier (')' :: rest)) :=
    ih.whole (by decide) (by decide) (ends_close _ _ _)
  rw [List.append_assoc, htoken]
  refine .expression ?_ (.prefixed (t := mark j) hj hoperand (by simpa using hn)) ?_
  · rcases hj with rfl | rfl <;> rfl
  · exact (ends_close 0 _ _).stop (bareTokens_proper _ _).ne_nil

theorem reread_postfixed {increases : Bool} (ih : Reread n) (hn : n.isAssignable = true)
    (hnum : n.isNumber = false) : Reread (.adjust t ⟨increases, false⟩ n) := by
  refine reread_parens (n.text.toList ++ (Adjustment.symbol ⟨increases, false⟩).toList)
    (by simp [Node.text]) fun rest => ?_
  obtain ⟨j, hj, rfl, htoken⟩ := bareTokens_change ⟨increases, false⟩
  have hstop : Stopped n ((Adjustment.symbol ⟨decide (j = .increment), false⟩).toList ++ ')' :: rest) := by
    rcases hj with rfl | rfl <;> simp [Stopped, hnum, Adjustment.symbol, endsWord, nextIs, isNamePart,
      isNameStart]
  rw [List.append_assoc]
  apply ih (by decide) hstop
  rw [htoken]
  have hpost : Derives (.operation n.shape) (mark j :: bareTokens j (')' :: rest))
      [.adjust {} ⟨decide ((mark j).kind = .increment), false⟩ n.shape] (bareTokens j (')' :: rest)) :=
    .postfixed hj (by simpa using hn)
  have hend : endsOperand .identifier = endsOperand j := by rcases hj with rfl | rfl <;> rfl
  rw [bareTokens_congr hend]
  refine .more ?_ ?_ hpost ?_
  · rcases hj with rfl | rfl <;> decide
  · rcases hj with rfl | rfl <;> rfl
  · exact (ends_close 0 _ _).stop (bareTokens_proper _ _).ne_nil

theorem reread_assign {target v : Node} (ht : target.isAccessor = true) (ih : Reread target)
    (ihv : Reread v) : Reread (.assign t target v) := by
  have hdeclare : target.isDeclare = false := by
    cases target <;> simp_all [isAccessor, isDeclare]
  have hassignable : target.isAssignable = true := by
    cases target <;> simp_all [isAccessor, isAssignable]
  refine reread_parens (target.text.toList ++ ' ' :: '=' :: ' ' :: v.text.toList)
    (by simp [Node.text, hdeclare]) fun rest => ?_
  have hsign : bareTokens .identifier (' ' :: '=' :: ' ' :: (v.text.toList ++ ')' :: rest)) =
      mark .assign :: bareTokens .assign (v.text.toList ++ ')' :: rest) := by
    rw [bareTokens_mark (j := .assign) rfl rfl rfl rfl, bareTokens_blank rfl]
  have hvalue : Derives (.expression (rightPower .assign))
      (bareTokens .assign (v.text.toList ++ ')' :: rest)) [v.shape]
      (bareTokens .identifier (')' :: rest)) :=
    ihv.whole (by decide) (by decide) (ends_close _ _ _)
  simp only [List.append_assoc, List.cons_append]
  apply ih (by decide) (stopped_of_delimiter (by decide))
  rw [hsign]
  refine .more (by decide) rfl (.assign rfl (by simpa using hassignable) hvalue) ?_
  exact (ends_close 0 _ _).stop (bareTokens_proper _ _).ne_nil

end Operations

/-! ## Whole expressions -/

/-- No expression begins with a sign, so an operator in front of it stays apart. -/
theorem lead_apart (h : n.Expression) (rest : List Char) :
    nextIs extendsSign (n.text.toList ++ rest) = false := by
  induction h generalizing rest with
  | undefined | null => simp [Node.text, Value.text, nextIs, extendsSign]
  | @boolean _ b => cases b <;> simp [Node.text, Value.text, nextIs, extendsSign]
  | string => simp [Node.text, Text.quote, Text.quoteChars, nextIs, extendsSign]
  | @number _ x hx hs =>
    cases ht : (Numeric.text x).toList with
    | nil => simp [ht, spellsNumber] at hs
    | cons c cs =>
      have hc : extendsSign c = false := by
        simp only [ht, spellsNumber, Bool.and_eq_true] at hs
        rcases start_of_isNumber hs.1.1 with ⟨rfl, -⟩ | hc | hc
        · rfl
        · exact extendsSign_of_isNamePart (by simp [isNamePart, hc])
        · exact extendsSign_of_isNamePart (isNamePart_of_isNameStart hc)
      simpa [Node.text, numberConstant, hx, ht, nextIs] using hc
  | @name _ s hs =>
    simp only [isPlainName, Bool.and_eq_true] at hs
    cases ht : s.toList with
    | nil => simp [ht, isWordText] at hs
    | cons c cs =>
      simp only [ht, isWordText, Bool.and_eq_true] at hs
      have hc := extendsSign_of_isNamePart (isNamePart_of_isNameStart hs.1.1.1.1)
      simpa [Node.text, ht, nextIs] using hc
  | member _ _ _ _ ih | index _ _ ih | call _ _ ih =>
    simpa [Node.text] using ih _
  | binary | unary | ternary => simp [Node.text, nextIs, extendsSign]
  | @adjust _ change =>
    obtain ⟨increases, before⟩ := change
    cases before <;> simp [Node.text, nextIs, extendsSign]
  | @assign _ target _ _ ht =>
    have hdeclare : target.isDeclare = false := by
      cases target <;> simp_all [isAccessor, isDeclare]
    simp [Node.text, hdeclare, nextIs, extendsSign]

/-- **Wherever an expression is printed, it is read.** -/
theorem reread (h : n.Expression) : Reread n := by
  induction h with
  | undefined => exact reread_named rfl rfl rfl rfl
  | null => exact reread_named rfl rfl rfl rfl
  | @boolean _ b => cases b <;> exact reread_named rfl rfl rfl rfl
  | string => exact reread_string ..
  | number hx hs => exact reread_number hx hs
  | name hs => exact reread_name hs
  | member _ hnum hw hk ih => exact reread_member hnum hw hk ih
  | index _ _ ih ihi => exact reread_index ih ihi
  | call _ _ ih iha => exact reread_call ih iha
  | binary _ _ ih ihr => exact reread_binary ih ihr
  | unary hm ih => exact reread_unary ih (lead_apart hm)
  | ternary _ _ _ ihc iha ihb => exact reread_ternary ihc iha ihb
  | @adjust _ change m _ hm ih =>
    obtain ⟨increases, before⟩ := change
    have hassignable : m.isAssignable = true := by
      cases m <;> simp_all [isAccessor, isAssignable]
    have hnum : m.isNumber = false := by
      cases m <;> simp_all [isAccessor, isNumber]
    cases before with
    | true => exact reread_prefixed ih hassignable
    | false => exact reread_postfixed ih hassignable hnum
  | assign _ ht _ ih ihv => exact reread_assign ht ih ihv

/-- **Reading inverts printing on expressions.** The text of an expression is read without an error as
the tree that was printed, and it is read to its end. -/
theorem expressions_reread (h : n.Expression) :
    accepts n.text = true ∧ (treeOf n.text).shape = n.shape ∧
    ((Parser.new {}).parse n.text).2.cursor.current.kind = .endOfInput ∧
    ((Parser.new {}).parse n.text).2.cursor.ahead = [] := by
  have hstop : Stopped n [] := by
    unfold Stopped
    split <;> rfl
  have hend : Ends 0 [ending] := ends_cons (.inr rfl)
  have hread : Derives (.expression 0) (tokensOf n.text) [n.shape] [ending] := by
    rw [tokensOf, ← List.append_nil n.text.toList]
    exact reread h (by decide) hstop (hend.stop (by simp))
  have hspells := spells_of_expression rfl hread
  have haccepts := (accepts_of_spells hspells (by simp)).1
  have hended := parse_ended (List.isEmpty_iff.1 haccepts)
  exact ⟨haccepts, treeOf_of_spells hspells (by simp), hended.1, hended.2.1⟩

/-- A negation is assigned to a member of what is found in the result of a call. -/
def assignment : Node :=
  .assign {}
    (.member {} (.index {} (.call {} (.name {} "f")
      [.member {} (.name {} "a") "if", .constant {} (.string "\x22")]) (.constant {} .null)) "b")
    (.unary {} .minus (.adjust {} ⟨true, false⟩ (.name {} "c")))

theorem expressions_reread_assignment :
    assignment.text = "(f(a.if, \x22\\\x22\x22)[null].b = (-(c++)))" ∧ accepts assignment.text = true ∧
    (treeOf assignment.text).shape = assignment := by
  have h : assignment.Expression :=
    .assign (.member (.index (.call (.name rfl) (by
      rintro a ha
      simp only [List.mem_cons, List.not_mem_nil, or_false] at ha
      rcases ha with rfl | rfl
      · exact .member (.name rfl) rfl rfl rfl
      · exact .string)) .null) rfl rfl rfl) rfl (.unary (.adjust (.name rfl) rfl))
  have hread := expressions_reread h
  exact ⟨by decide +kernel, hread.1, hread.2.1⟩

end Parser

end Steppable
