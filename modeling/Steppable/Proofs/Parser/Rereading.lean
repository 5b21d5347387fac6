import Mathlib.Data.List.Chain
import Steppable.Proofs.Parser.Inversion
import Steppable.Proofs.Parser.Lookahead

/-!
# Reading statements that are printed

Every body is printed in braces and every statement of a block in front of a semicolon, so that the
statements can be told apart again. The semicolon is where that can fail unnoticed: the body of an `if`
or a `while` takes it, and the expression around the body is still open where the next statement
begins. A parenthesis there is read as a call of the `if`, and an empty statement is swallowed; `Parted`
rules out both.

**Theorem (`statements_reread`).** The text of a statement whose operands are expressions is read as
the tree that was printed.

The proof is an induction over statements with two invariants: a statement is read in front of a
semicolon, or at the end of the text (`Restated`), and it is read in braces, whatever is behind them
(`Embraced`).
-/

namespace Steppable

namespace Node

/-- Whether the text ends with a body that takes the semicolon behind it. -/
def takesSemicolon : Node → Bool
  | guarded .. => true
  | choice _ ternary _ _ _ => !ternary
  | loop _ bodyFirst _ _ => !bodyFirst
  | _ => false

/-- Whether the text begins with a parenthesis. -/
def opensParen : Node → Bool
  | binary .. | unary .. | adjust .. | assign .. => true
  | choice _ ternary _ _ _ => ternary
  | member _ l _ | index _ l _ | call _ l _ => l.opensParen
  | _ => false

/-- The text of `t` is not taken for a part of `s` where it is printed behind it. -/
def Parted (s t : Node) : Prop :=
  s.takesSemicolon = true → Parser.isNop t = false ∧ t.opensParen = false

instance : DecidableRel Parted :=
  fun _ _ => inferInstanceAs (Decidable (_ → _))

/-- The trees of statements whose operands are expressions. -/
inductive Statement : Node → Prop
  | expression {n : Node} : Expression n → Statement n
  | jump {t : Tag} {k : Jump} : Statement (.jump t k)
  | giveBack {t : Tag} {v : Node} : Expression v → Statement (.giveBack t v)
  | nop {t : Tag} : Statement (.nop t)
  | guarded {t : Tag} {c b : Node} : Expression c → Statement b → Statement (.guarded t c b)
  | choice {t : Tag} {c a b : Node} :
      Expression c → Statement a → Statement b → Statement (.choice t false c a b)
  | loop {t : Tag} {bodyFirst : Bool} {c b : Node} :
      Expression c → Statement b → Statement (.loop t bodyFirst c b)
  /-- One statement in braces stands for itself. -/
  | block {t : Tag} {ss : List Node} :
      ss.length ≠ 1 → (∀ s ∈ ss, Statement s) → ss.IsChain Parted → Statement (.block t ss [])

end Node

namespace Parser

open Node Token

variable {k : Token.Kind} {rest cs : List Char} {ts rs r : List Token} {power : Nat} {t : Tag}
  {n m c a b v : Node} {ss : List Node}

/-! ## What stands behind a statement -/

/-- What stands behind a printed statement, and the tokens that are left behind it: it ends the text,
or a semicolon ends it. -/
inductive Behind : List Char → List Token → Prop
  | ending : Behind [] [Token.ending]
  | semicolon (rest : List Char) : Behind (';' :: ' ' :: rest) (bareTokens .semicolon rest)

theorem bareTokens_semicolon (k : Token.Kind) (rest : List Char) :
    bareTokens k (';' :: ' ' :: rest) = mark .semicolon :: bareTokens .semicolon rest := by
  rw [bareTokens_of_scan (s := { kind := .semicolon, rest := ' ' :: rest }) rfl rfl rfl rfl,
    bareTokens_blank rfl]
  rfl

/-- No operation goes on. -/
theorem Behind.stop (h : Behind rest rs) (power : Nat) (k : Token.Kind) (n : Node) :
    Derives (.operations power n) (bareTokens k rest) [n] (bareTokens k rest) := by
  cases h with
  | ending => exact (ends_cons (.inr rfl)).stop (by simp)
  | semicolon rest =>
    rw [bareTokens_semicolon]
    exact (ends_cons (.inr rfl)).stop (by simp)

theorem Behind.stopped (h : Behind rest rs) : Stopped n rest := by
  cases h with
  | ending =>
    unfold Stopped
    split <;> rfl
  | semicolon rest => exact stopped_of_delimiter (by decide)

/-- An expression is a statement with the semicolon behind it. -/
theorem Behind.statement (h : Behind rest rs)
    (hd : Derives (.expression 0) ts [n] (bareTokens k rest)) : Derives .statement ts [n] rs := by
  cases h with
  | ending => exact .unterminated (u := Token.ending) hd (by simp [Token.ending])
  | semicolon rest =>
    rw [bareTokens_semicolon] at hd
    exact .terminated hd rfl

theorem Derives.expression_of_operand {ns us : List Token} (hd : Derives (.operand power) ts [n] us)
    (hs : Derives (.operations power n) us [m] ns) : Derives (.expression power) ts [m] ns := by
  obtain ⟨u, vs, rfl, hu⟩ := hd.operand_begins
  exact .expression (isLast_of_begins hu) hd hs

/-- What ends in front of a token that does not go on is a statement. -/
theorem Derives.statement_of_operand {u : Token} (hd : Derives (.operand 0) ts [n] (u :: r))
    (hc : continues u.kind = false) (hs : u.kind ≠ .semicolon) : Derives .statement ts [n] (u :: r) :=
  .unterminated (hd.expression_of_operand (.stop fun h => by simp [hc] at h)) hs

theorem Behind.operand (h : Behind rest rs) (hd : Derives (.operand 0) ts [n] (bareTokens k rest)) :
    Derives .statement ts [n] rs :=
  h.statement (hd.expression_of_operand (h.stop 0 k n))

/-- Nothing in front of the tokens goes on with them. -/
def Quiet (ts : List Token) : Prop :=
  ∃ u us, ts = u :: us ∧ continues u.kind = false ∧ u.kind ≠ .semicolon ∧ u.isWord "else" = false

theorem quiet_ending : Quiet [Token.ending] :=
  ⟨_, _, rfl, rfl, by simp [Token.ending], rfl⟩

theorem bareTokens_closeCurly (k : Token.Kind) (rest : List Char) :
    bareTokens k ('\x7d' :: rest) = mark .closeCurly :: bareTokens .closeCurly rest :=
  bareTokens_of_scan rfl rfl rfl rfl

theorem quiet_closeCurly (k : Token.Kind) (rest : List Char) :
    Quiet (bareTokens k ('\x7d' :: rest)) := by
  rw [bareTokens_closeCurly]
  exact ⟨_, _, rfl, rfl, by simp [mark], rfl⟩

/-! ## How a statement begins -/

/-- A word continues an `if` only if it is `else`. -/
theorem quiet_word (cs : List Char) (hw : isWordText cs = true) (hk : kindOfName cs = .identifier)
    (he : cs ≠ "else".toList) (hr : endsWord rest = true) : Quiet (bareTokens k (cs ++ rest)) := by
  have hkind := (kind_word hw).trans hk
  refine ⟨_, _, bareTokens_word hw hr, by rw [hkind]; rfl, by simp [hkind], ?_⟩
  refine Bool.eq_false_iff.2 fun hword => he ?_
  have htext := text_of_isWord hword
  rw [text_word hw] at htext
  rw [← htext, String.toList_ofList]

theorem quiet_plainName {s : String} (hs : isPlainName s = true) (hr : endsWord rest = true) :
    Quiet (bareTokens k (s.toList ++ rest)) := by
  simp only [isPlainName, Bool.and_eq_true, beq_iff_eq, Bool.not_eq_true', Option.isNone_iff_eq_none,
    List.contains_eq_mem, decide_eq_false_iff_not] at hs
  obtain ⟨⟨⟨hw, hk⟩, hword⟩, -⟩ := hs
  refine quiet_word _ hw hk (fun he => hword ?_) hr
  rw [String.toList_injective he]
  decide

/-- An expression that does not begin with a parenthesis begins with a word, a number or a string. -/
theorem quiet_expression (h : n.Expression) (hp : n.opensParen = false) (hr : Stopped n rest) :
    Quiet (bareTokens k (n.text.toList ++ rest)) := by
  induction h generalizing rest with
  | undefined => exact quiet_word "undefined".toList rfl rfl (by decide) (endsWord_of_stopped hr)
  | null => exact quiet_word "null".toList rfl rfl (by decide) (endsWord_of_stopped hr)
  | @boolean _ b =>
    have hend := endsWord_of_stopped hr
    cases b with
    | false => exact quiet_word "false".toList rfl rfl (by decide) hend
    | true => exact quiet_word "true".toList rfl rfl (by decide) hend
  | @string _ s =>
    rw [Node.text, bareTokens_quote]
    exact ⟨_, _, rfl, rfl, by simp, rfl⟩
  | @number _ x hx hs =>
    obtain ⟨u, form, hu, rfl, htokens⟩ := bareTokens_number (k := k) hs hr
    have htext : numberConstant u.number = Numeric.text u.number := if_neg hx
    rw [Node.text, htext, htokens]
    exact ⟨u, _, rfl, by rw [hu]; rfl, by simp [hu], by rw [isWord, hu]; rfl⟩
  | name hs => exact quiet_plainName hs (endsWord_of_stopped hr)
  | @member _ l s _ hnum _ _ ih =>
    have hstop : Stopped l ('.' :: (s.toList ++ rest)) := by
      simp [Stopped, hnum, endsWord, nextIs, isNamePart, isNameStart]
    simpa [Node.text] using ih hp hstop
  | @index _ l i _ _ ih =>
    have hstop : Stopped l ('[' :: (i.text.toList ++ ']' :: rest)) := stopped_of_delimiter (by decide)
    simpa [Node.text] using ih hp hstop
  | @call _ l as _ _ ih =>
    have hstop : Stopped l ('(' :: ((joinWith ", " (texts as)).toList ++ ')' :: rest)) :=
      stopped_of_delimiter (by decide)
    simpa [Node.text] using ih hp hstop
  | binary | unary | ternary | adjust | assign => cases hp

/-! ## Braces -/

/-- The printed statement is read wherever it stands, with the semicolon behind it. -/
def Restated (n : Node) : Prop :=
  ∀ ⦃k : Token.Kind⦄ ⦃rest : List Char⦄ ⦃rs : List Token⦄, Behind rest rs →
    (isNop n = true → rest ≠ []) → (n.takesSemicolon = true → Quiet rs) →
    Derives .statement (bareTokens k (n.text.toList ++ rest)) [n.shape] rs

/-- The statement is read in braces. -/
def Embraced (n : Node) : Prop :=
  ∀ ⦃power : Nat⦄ ⦃k : Token.Kind⦄ ⦃rest : List Char⦄,
    Derives (.operand power) (bareTokens k ((n.braced n.text).toList ++ rest)) [n.shape]
      (bareTokens .closeCurly rest)

theorem bareTokens_openCurly (k : Token.Kind) (rest : List Char) :
    bareTokens k ('\x7b' :: ' ' :: rest) = mark .openCurly :: bareTokens .openCurly rest := by
  rw [bareTokens_of_scan (s := { kind := .openCurly, rest := ' ' :: rest }) rfl rfl rfl rfl,
    bareTokens_blank rfl]
  rfl

/-- The text of the statements of a block, each in front of a semicolon. -/
def sequence (ss : List Node) : List Char :=
  ss.flatMap fun s => s.text.toList ++ [';', ' ']

/-- Statements that are read one by one are read in a row, if each is quiet behind a body. -/
theorem derives_sequence (h : ∀ s ∈ ss, Restated s)
    (hq : ss.IsChain fun s t => s.takesSemicolon = true →
      ∀ rest, Quiet (bareTokens .semicolon (t.text.toList ++ ';' :: rest)))
    (k : Token.Kind) (rest : List Char) :
    Derives (.statements (some .closeCurly)) (bareTokens k (sequence ss ++ '\x7d' :: rest)) (shapes ss)
      (bareTokens .closeCurly rest) := by
  induction ss generalizing k with
  | nil =>
    rw [sequence, List.flatMap_nil, List.nil_append, bareTokens_closeCurly]
    exact .closed rfl rfl
  | cons s ss ih =>
    have hquiet : s.takesSemicolon = true →
        Quiet (bareTokens .semicolon (sequence ss ++ '\x7d' :: rest)) := by
      intro hs
      cases ss with
      | nil => exact quiet_closeCurly _ _
      | cons t ss =>
        have ht := (List.isChain_cons_cons.1 hq).1 hs (' ' :: (sequence ss ++ '\x7d' :: rest))
        simpa [sequence] using ht
    have hfirst := h s (by simp) (k := k) (.semicolon (sequence ss ++ '\x7d' :: rest)) (by simp) hquiet
    have hrest := ih (fun s hs => h s (by simp [hs])) hq.tail .semicolon
    have htext : sequence (s :: ss) ++ '\x7d' :: rest =
        s.text.toList ++ ';' :: ' ' :: (sequence ss ++ '\x7d' :: rest) := by
      simp [sequence]
    rw [htext]
    obtain ⟨u, us, hus, hu⟩ := hfirst.statement_begins
    rw [hus] at hfirst ⊢
    refine .statements (fun hk => ?_) hfirst hrest
    rw [hk] at hu
    cases hu

theorem toList_joinWith_empty (ts : List String) :
    (joinWith "" ts).toList = ts.flatMap String.toList := by
  fun_induction joinWith "" ts <;> simp_all

theorem isDeclarator_of_statement (h : n.Statement) : n.isDeclarator = false := by
  cases h with
  | expression h =>
    cases h with
    | @assign _ target _ _ ht => cases target <;> simp_all [isAccessor, isDeclarator, isDeclare]
    | _ => rfl
  | _ => rfl

theorem isVarList_of_statements {locals : List Declaration} (h : ∀ s ∈ ss, Statement s) :
    (Node.block t ss locals).isVarList = false := by
  cases ss with
  | nil => simp [isVarList]
  | cons s ss => simp [isVarList, isDeclarator_of_statement (h s (by simp))]

theorem text_block (h : ∀ s ∈ ss, Statement s) (t : Tag) :
    (Node.block t ss []).text.toList = '\x7b' :: ' ' :: (sequence ss ++ ['\x7d']) := by
  have hseq : (joinWith "" ((texts ss).map (· ++ "; "))).toList = sequence ss := by
    rw [toList_joinWith_empty]
    clear h
    induction ss with
    | nil => rfl
    | cons s ss ih => simpa [texts, sequence] using ih
  simp [Node.text, isVarList_of_statements h, hseq]

/-- A block brings its own braces. -/
theorem braced_block (h : ∀ s ∈ ss, Statement s) (t : Tag) (text : String) :
    (Node.block t ss []).braced text = text := by
  simp [braced, isBlock, isVarList_of_statements h]

theorem embraced_block (hs : ∀ s ∈ ss, Statement s) (hl : ss.length ≠ 1)
    (hd : ∀ k rest, Derives (.statements (some .closeCurly))
      (bareTokens k (sequence ss ++ '\x7d' :: rest)) (shapes ss) (bareTokens .closeCurly rest)) :
    Embraced (.block t ss []) := by
  intro power k rest
  have hgrouped : grouped (shapes ss) = (Node.block t ss []).shape := by
    rw [shapes_eq_map]
    match ss, hl with
    | [], _ => rfl
    | _ :: _ :: _, _ => simp [grouped, shape, shapes_eq_map]
  have htext : '\x7b' :: ' ' :: (sequence ss ++ ['\x7d']) ++ rest =
      '\x7b' :: ' ' :: (sequence ss ++ '\x7d' :: rest) := by simp
  rw [braced_block hs, text_block hs, htext, bareTokens_openCurly, ← hgrouped]
  exact .braces rfl (hd _ _)

/-- A statement that is no block is put in braces. -/
theorem Restated.embraced (h : Restated n) (hn : n.isBlock = false) : Embraced n := by
  intro power k rest
  have htext : (n.braced n.text).toList ++ rest =
      '\x7b' :: ' ' :: (sequence [n] ++ '\x7d' :: rest) := by
    simp [braced, hn, sequence]
  rw [htext, bareTokens_openCurly]
  exact .braces rfl (derives_sequence (by simpa using h) (.singleton n) _ _)

/-! ## Statements -/

theorem Behind.embraced (h : Behind rest rs) (hb : Embraced b) :
    Derives .statement (bareTokens k ((b.braced b.text).toList ++ rest)) [b.shape] rs :=
  h.operand (@hb 0 k rest)

/-- The body behind a condition. -/
theorem Behind.body (h : Behind rest rs) (hb : Embraced b) :
    Derives .statement (bareTokens k (' ' :: ((b.braced b.text).toList ++ rest))) [b.shape] rs := by
  rw [bareTokens_blank rfl]
  exact h.embraced hb

theorem restated_expression (h : n.Expression) : Restated n := by
  intro k rest rs hb _ _
  exact hb.statement (reread h (by decide) hb.stopped (hb.stop 0 .identifier n.shape))

theorem restated_nop : Restated (.nop t) := by
  intro k rest rs hb hr _
  cases hb with
  | ending => exact (hr rfl rfl).elim
  | semicolon rest =>
    show Derives _ (bareTokens k (';' :: ' ' :: rest)) _ _
    rw [bareTokens_semicolon]
    exact .nop_statement rfl

theorem restated_jump {j : Jump} : Restated (.jump t j) := by
  intro k rest rs hb _ _
  have hword : ∀ cs, j.keyword.toList = cs → isWordText cs = true → kindOfName cs = .identifier →
      bareTokens k ((Node.jump t j).text.toList ++ rest) = word cs :: bareTokens .identifier rest := by
    rintro cs rfl hw hk
    show bareTokens k (j.keyword.toList ++ rest) = _
    rw [bareTokens_word hw (endsWord_of_stopped (n := .nop {}) hb.stopped), kind_word hw, hk]
  cases j with
  | «break» =>
    rw [hword "break".toList rfl rfl rfl]
    exact hb.operand (.breaking rfl)
  | «continue» =>
    rw [hword "continue".toList rfl rfl rfl]
    exact hb.operand (.continuing rfl)
  | «return» =>
    rw [hword "return".toList rfl rfl rfl]
    refine hb.operand (k := .identifier) ?_
    cases hb with
    | ending => exact .bareReturn rfl rfl
    | semicolon rest =>
      rw [bareTokens_semicolon]
      exact .bareReturn rfl rfl

/-- What ends a `return` begins no operand but the empty statement. -/
theorem endsReturn_of_begins {k : Token.Kind} (h : begins 1 k = true) : endsReturn k = false := by
  cases k <;> first | rfl | cases h

theorem restated_giveBack (hv : Reread v) : Restated (.giveBack t v) := by
  intro k rest rs hb _ _
  have htext : (Node.giveBack t v).text.toList ++ rest =
      "return".toList ++ ' ' :: (v.text.toList ++ rest) := by
    simp [Node.text]
  have read : ∀ power, power < Token.Kind.precedence .dot →
      Derives (.expression power) (bareTokens .identifier (v.text.toList ++ rest)) [v.shape]
        (bareTokens .identifier rest) := fun _ hp =>
    hv hp hb.stopped (hb.stop _ _ _)
  -- Asked for more than the weakest operators, the value cannot be the empty statement.
  obtain ⟨u, us, hus, hu⟩ := (read 1 (by decide)).expression_begins
  have hread := read 0 (by decide)
  rw [hus] at hread
  rw [htext, bareTokens_keyword rfl rfl, hus]
  exact hb.operand (.giveBack rfl (endsReturn_of_begins hu) hread)

theorem derives_condition (hc : Reread c) :
    Derives .condition (bareTokens k ('(' :: (c.text.toList ++ ')' :: rest))) [c.shape]
      (bareTokens .closePar rest) := by
  have hopen : bareTokens k ('(' :: (c.text.toList ++ ')' :: rest)) =
      mark .openPar :: bareTokens .openPar (c.text.toList ++ ')' :: rest) :=
    bareTokens_of_scan rfl rfl rfl rfl
  have hinner : Derives (.expression 0) (bareTokens .openPar (c.text.toList ++ ')' :: rest)) [c.shape]
      (bareTokens .identifier (')' :: rest)) := hc.whole (by decide) (by decide) (ends_close _ _ _)
  rw [bareTokens_close] at hinner
  rw [hopen]
  exact .condition rfl hinner rfl

theorem restated_guarded (hc : Reread c) (hb : Embraced b) : Restated (.guarded t c b) := by
  intro k rest rs hrest _ hq
  obtain ⟨u, us, hus, hu, hs, helse⟩ := hq rfl
  subst hus
  have htext : (Node.guarded t c b).text.toList ++ rest = "if".toList ++ ' ' ::
      ('(' :: (c.text.toList ++ ')' :: ' ' :: ((b.braced b.text).toList ++ rest))) := by
    simp [Node.text]
  rw [htext, bareTokens_keyword rfl rfl]
  exact Derives.statement_of_operand
    (.guarded rfl (derives_condition hc) (hrest.body hb) helse) hu hs

theorem restated_choice (hc : Reread c) (ha : Embraced a) (hb : Embraced b) :
    Restated (.choice t false c a b) := by
  intro k rest rs hrest _ hq
  obtain ⟨u, us, hus, hu, hs, -⟩ := hq rfl
  subst hus
  have htext : (Node.choice t false c a b).text.toList ++ rest = "if".toList ++ ' ' ::
      ('(' :: (c.text.toList ++ ')' :: ' ' :: ((a.braced a.text).toList ++
        ' ' :: ("else".toList ++ ' ' :: ((b.braced b.text).toList ++ rest))))) := by
    simp [Node.text]
  have hword : bareTokens .closeCurly
      (' ' :: ("else".toList ++ ' ' :: ((b.braced b.text).toList ++ rest))) =
        word "else".toList :: bareTokens .identifier ((b.braced b.text).toList ++ rest) := by
    rw [bareTokens_blank rfl, bareTokens_keyword rfl rfl]
  -- The first body ends in front of `else`, which takes no semicolon.
  have hfirst := @ha 0 .closePar (' ' :: ("else".toList ++ ' ' :: ((b.braced b.text).toList ++ rest)))
  rw [hword, ← bareTokens_blank (c := ' ') rfl] at hfirst
  rw [htext, bareTokens_keyword rfl rfl]
  exact Derives.statement_of_operand (.choice rfl (derives_condition hc)
    (hfirst.statement_of_operand rfl (by decide)) rfl (hrest.embraced hb)) hu hs

theorem restated_while (hc : Reread c) (hb : Embraced b) : Restated (.loop t false c b) := by
  intro k rest rs hrest _ hq
  obtain ⟨u, us, hus, hu, hs, -⟩ := hq rfl
  subst hus
  have htext : (Node.loop t false c b).text.toList ++ rest = "while".toList ++ ' ' ::
      ('(' :: (c.text.toList ++ ')' :: ' ' :: ((b.braced b.text).toList ++ rest))) := by
    simp [Node.text]
  rw [htext, bareTokens_keyword rfl rfl]
  exact Derives.statement_of_operand
    (.whileLoop rfl (derives_condition hc) (hrest.body hb)) hu hs

theorem restated_do (hc : Reread c) (hb : Embraced b) : Restated (.loop t true c b) := by
  intro k rest rs hrest _ _
  have htext : (Node.loop t true c b).text.toList ++ rest = "do".toList ++ ' ' ::
      ((b.braced b.text).toList ++ ' ' :: ("while".toList ++ ' ' ::
        ('(' :: (c.text.toList ++ ')' :: rest)))) := by
    simp [Node.text]
  have hword : bareTokens .closeCurly (' ' :: ("while".toList ++ ' ' ::
      ('(' :: (c.text.toList ++ ')' :: rest)))) =
        word "while".toList :: bareTokens .identifier ('(' :: (c.text.toList ++ ')' :: rest)) := by
    rw [bareTokens_blank rfl, bareTokens_keyword rfl rfl]
  have hbody := @hb 0 .identifier (' ' :: ("while".toList ++ ' ' ::
    ('(' :: (c.text.toList ++ ')' :: rest))))
  rw [hword] at hbody
  rw [htext, bareTokens_keyword rfl rfl]
  exact hrest.operand (.doLoop rfl (hbody.statement_of_operand rfl (by decide)) rfl
    (derives_condition hc))

/-! ## Whole statements -/

/-- Nothing goes on with a statement that is not empty and does not begin with a parenthesis. -/
theorem quiet_statement (h : n.Statement) (hn : isNop n = false) (hp : n.opensParen = false)
    (rest : List Char) : Quiet (bareTokens .semicolon (n.text.toList ++ ';' :: rest)) := by
  have keyword : ∀ cs ds, n.text.toList ++ ';' :: rest = cs ++ ds → isWordText cs = true →
      kindOfName cs = .identifier → cs ≠ "else".toList → endsWord ds = true →
      Quiet (bareTokens .semicolon (n.text.toList ++ ';' :: rest)) := by
    intro cs ds htext hw hk he hd
    rw [htext]
    exact quiet_word cs hw hk he hd
  cases h with
  | expression h => exact quiet_expression h hp (stopped_of_delimiter (by decide))
  | @jump _ j =>
    cases j with
    | «break» => exact keyword "break".toList (';' :: rest) rfl rfl rfl (by decide) rfl
    | «continue» => exact keyword "continue".toList (';' :: rest) rfl rfl rfl (by decide) rfl
    | «return» => exact keyword "return".toList (';' :: rest) rfl rfl rfl (by decide) rfl
  | giveBack =>
    exact keyword "return".toList (' ' :: _) (by simp [Node.text]; rfl) rfl rfl (by decide) rfl
  | nop => cases hn
  | guarded | choice =>
    exact keyword "if".toList (' ' :: _) (by simp [Node.text]; rfl) rfl rfl (by decide) rfl
  | @loop _ bodyFirst =>
    cases bodyFirst with
    | false =>
      exact keyword "while".toList (' ' :: _) (by simp [Node.text]; rfl) rfl rfl (by decide) rfl
    | true =>
      exact keyword "do".toList (' ' :: _) (by simp [Node.text]; rfl) rfl rfl (by decide) rfl
  | block _ hs =>
    rw [text_block hs, List.cons_append, List.cons_append, bareTokens_openCurly]
    exact ⟨_, _, rfl, rfl, by simp [mark], rfl⟩

/-- **Wherever a statement is printed, it is read**, bare and in braces. -/
theorem restated (h : n.Statement) : Restated n ∧ Embraced n := by
  have plain : ∀ {n : Node}, Restated n → n.isBlock = false → Restated n ∧ Embraced n :=
    fun hn hb => ⟨hn, hn.embraced hb⟩
  induction h with
  | expression h => exact plain (restated_expression h) (by cases h <;> rfl)
  | jump => exact plain restated_jump rfl
  | giveBack h => exact plain (restated_giveBack (reread h)) rfl
  | nop => exact plain restated_nop rfl
  | guarded hc _ ih => exact plain (restated_guarded (reread hc) ih.2) rfl
  | choice hc _ _ iha ihb => exact plain (restated_choice (reread hc) iha.2 ihb.2) rfl
  | @loop _ bodyFirst _ _ hc _ ih =>
    cases bodyFirst with
    | false => exact plain (restated_while (reread hc) ih.2) rfl
    | true => exact plain (restated_do (reread hc) ih.2) rfl
  | @block t ss hl hs hp ih =>
    have hquiet := hp.imp_of_mem_tail_imp (S := fun s t => s.takesSemicolon = true →
      ∀ rest, Quiet (bareTokens .semicolon (t.text.toList ++ ';' :: rest))) fun s t _ ht hst htakes =>
        quiet_statement (hs t (List.mem_of_mem_tail ht)) (hst htakes).1 (hst htakes).2
    have hblock : Embraced (.block t ss []) :=
      embraced_block hs hl fun k rest => derives_sequence (fun s hs => (ih s hs).1) hquiet k rest
    refine ⟨fun k rest rs hrest _ _ => ?_, hblock⟩
    have hread := hrest.embraced (k := k) hblock
    rwa [braced_block hs] at hread

/-- **Reading inverts printing on statements.** The text of a statement that is not empty is read
without an error as the tree that was printed. -/
theorem statements_reread (h : n.Statement) (hn : isNop n = false) :
    accepts n.text = true ∧ (treeOf n.text).shape = n.shape := by
  have hread := (restated h).1 (k := .none) .ending (by simp [hn]) fun _ => quiet_ending
  rw [List.append_nil] at hread
  have hspells := spells_of_statement rfl hread
  exact ⟨(accepts_of_spells hspells (by simp)).1, treeOf_of_spells hspells (by simp)⟩

end Parser

end Steppable
