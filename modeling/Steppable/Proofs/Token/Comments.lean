import Steppable.Proofs.Token.Places

/-!
# Comments make no difference

What a slash begins depends on the token before it. If a comment counted as that token, the division
in `a /* b */ / c` would become a regular expression as soon as comments are read. A comment is
passed over in both modes when the next token is scanned, and it changes neither the place where
that token is found nor the number remembered.

**Theorem (`comments_transparent`).** A cursor that passes over the comments reads what a cursor
reads that does not, without its comments.
-/

namespace Steppable

namespace Token

variable {k : Kind} {cs : List Char} {t : Token} {ts : List Token}

def isComment (t : Token) : Bool :=
  t.kind.isComment

theorem not_isComment_of_isLast (h : t.kind.isLast = true) : t.isComment = false := by
  rw [isComment]
  cases hk : t.kind <;> rw [hk] at h <;> first | rfl | cases h

/-- To pass over comments is to leave them out. -/
theorem tokensFrom_filter (fuel : Nat) (k : Kind) (here : Position) (cs : List Char) :
    tokensFrom false fuel k here cs = (tokensFrom true fuel k here cs).filter (!·.isComment) := by
  induction fuel generalizing k here cs with
  | zero => rfl
  | succ fuel ih =>
    rw [tokensFrom, tokensFrom]
    cases cs.dropWhile Text.isBlank with
    | nil => rfl
    | cons c ds =>
      dsimp only
      generalize scan k c ds = s
      split
      · rename_i he
        have hk : (s.token (here.after (cs.takeWhile Text.isBlank))
            (s.stop (here.after (cs.takeWhile Text.isBlank)) (c :: ds))).isComment = false :=
          not_isComment_of_isLast (by simp [Kind.isLast, Scan.token, he])
        rw [List.filter_cons, hk]
        rfl
      · split
        · rename_i hc
          have hk : s.kind.isComment = true := hc
          simp only [Bool.false_eq_true, if_false, if_true, List.filter_cons, isComment,
            Scan.token, hk, Bool.not_true]
          exact ih _ _ _
        · rename_i hc
          have hk : s.kind.isComment = false := by simpa using hc
          simp only [List.filter_cons, isComment, Scan.token, hk, Bool.not_false, if_true]
          exact congrArg _ (ih _ _ _)

theorem lex_filter (source : String) : lex source = (lex source true).filter (!·.isComment) :=
  tokensFrom_filter _ _ _ _

theorem Cuts.proper {i : Nat} (h : Cuts cs i ts) : Proper ts := by
  induction h with
  | @last i t _ hl => exact ⟨[], t, rfl, hl, by simp⟩
  | cons _ hl _ ih => exact ih.cons hl

/-- The last token is no comment, so it stays the last one. -/
theorem Proper.filter (h : Proper ts) : Proper (ts.filter (!·.isComment)) := by
  obtain ⟨us, e, rfl, he, hus⟩ := h
  refine ⟨us.filter (!·.isComment), e, ?_, he, fun u hu => hus u (List.mem_filter.1 hu).1⟩
  rw [List.filter_append, List.filter_cons, not_isComment_of_isLast he]
  rfl

/-- What a slash that begins no comment is taken for. -/
def Kind.isSlash : Kind → Bool
  | .binary (.arith .divide) | .compound .divide | .regex | .error .unterminatedRegex => true
  | _ => false

theorem Kind.isComment_of_isSlash (h : k.isSlash = true) : k.isComment = false := by
  revert h
  fun_cases Kind.isSlash k <;> intro h <;> first | rfl | cases h

end Token

namespace Cursor

open Token

variable {c : Cursor} {k : Nat}

/-- What a reader is told about the token that a cursor is on. -/
structure Item where
  kind : Token.Kind
  text : String
  number : Float
  place : Location

def item (c : Cursor) : Item :=
  ⟨c.current.kind, c.current.text, c.number, c.current.place⟩

/-- What is read with at most `k` moves, up to and including the first error or the end of the
input. -/
def items (c : Cursor) : Nat → List Item
  | 0 => [c.item]
  | k + 1 => if c.atLast then [c.item] else c.item :: c.forward.items k

/-- What is read of tokens when `number` is the last number before them. -/
def itemsOf (number : Float) : List Token → List Item
  | [] => []
  | t :: ts =>
    ⟨t.kind, t.text, remember number t, t.place⟩ :: itemsOf (remember number t) ts

/-- Moves that suffice lead through all tokens. -/
theorem items_eq (h : Proper c.tokens) (hk : c.ahead.length ≤ k) :
    c.items k = c.item :: itemsOf c.number c.ahead := by
  induction k generalizing c with
  | zero =>
    rw [List.length_eq_zero_iff.1 (Nat.le_zero.1 hk)]
    rfl
  | succ k ih =>
    rw [items]
    split
    · rename_i hl
      rw [show c.ahead = [] from h.singleton hl]
      rfl
    · rename_i hl
      have hl : c.current.kind.isLast = false := by simpa [atLast] using hl
      have ht := h.tail hl
      cases hts : c.ahead with
      | nil => exact (ht.ne_nil hts).elim
      | cons t ts =>
        have hf : c.forward = { c with
            current := t, ahead := ts, previous := c.current.place,
            number := remember c.number t } := by
          rw [forward, atLast, hl, hts]
          rfl
        rw [hts] at ht hk
        have hrest : c.forward.items k = _ := ih (hf ▸ ht) (hf ▸ Nat.le_of_succ_le_succ hk)
        rw [hrest, hf]
        rfl

theorem items_ofSource (source : String) (comments : Bool) (hp : Proper (lex source comments))
    (hk : (lex source comments).length ≤ k + 1) :
    (ofSource source comments).items k = itemsOf 0 (lex source comments) := by
  rw [ofSource, start]
  cases hts : lex source comments with
  | nil => exact (hp.ne_nil hts).elim
  | cons t ts =>
    rw [hts] at hp hk
    exact items_eq hp (Nat.le_of_succ_le_succ hk)

/-- A comment has no number, so it leaves no trace. -/
theorem itemsOf_filter (number : Float) (ts : List Token) :
    itemsOf number (ts.filter (!·.isComment)) =
      (itemsOf number ts).filter (!·.kind.isComment) := by
  induction ts generalizing number with
  | nil => rfl
  | cons t ts ih =>
    cases hc : t.isComment with
    | true =>
      have hk : t.kind.isComment = true := hc
      have hn : t.kind.isNumber = false := by
        simp only [Kind.isComment, beq_iff_eq] at hk
        simp [Kind.isNumber, hk]
      rw [List.filter_cons_of_neg (by simp [hc]), ih, itemsOf, remember, hn]
      rw [List.filter_cons_of_neg (by simp [hk])]
      rfl
    | false =>
      have hk : t.kind.isComment = false := hc
      rw [List.filter_cons_of_pos (by simp [hc]), itemsOf, itemsOf, ih]
      rw [List.filter_cons_of_pos (by simp [hk])]

/-- **Comments make no difference.** As many moves as there are characters suffice in both modes to
read everything. In particular a slash is taken for the same thing in both modes, and at the same
place. -/
theorem comments_transparent (source : String) (j k : Nat) :
    (ofSource source).items (source.toList.length + j) =
      ((ofSource source true).items (source.toList.length + k)).filter (!·.kind.isComment) ∧
    ((ofSource source).items (source.toList.length + j)).filter (·.kind.isSlash) =
      ((ofSource source true).items (source.toList.length + k)).filter (·.kind.isSlash) := by
  have hcuts := lex_cuts source
  have hlen : (lex source true).length ≤ source.toList.length + 1 := hcuts.length_le
  have hfilter : (lex source).length ≤ (lex source true).length := by
    rw [lex_filter]
    exact List.length_filter_le _ _
  have hall : (ofSource source).items (source.toList.length + j) =
      ((ofSource source true).items (source.toList.length + k)).filter (!·.kind.isComment) := by
    rw [items_ofSource source false (lex_filter source ▸ hcuts.proper.filter) (by omega),
      items_ofSource source true hcuts.proper (by omega), lex_filter, itemsOf_filter]
  refine ⟨hall, ?_⟩
  rw [hall, List.filter_filter]
  refine List.filter_congr fun i _ => ?_
  cases hk : i.kind.isSlash with
  | true => simp [Kind.isComment_of_isSlash hk]
  | false => rfl

end Cursor

end Steppable
