import Mathlib.Data.List.Induction
import Mathlib.Data.List.TakeWhile
import Steppable.Proofs.Token.Lines
import Steppable.Token.Cursor

/-!
# No character is lost

A scanner that took one character too many or too few, in whatever branch, would move every later
token away from its place. None does: what a scanner leaves is the end of what it was given
(`scan_fits`), so a place that is counted from the characters taken is right.

**Theorem (`tokens_lossless`).** A cursor that reads a text with its comments reaches the last token
within as many moves as the text has characters. Between the tokens it passes there are blanks only,
every one of them stands where its place says, and names and regular expressions have the text that
stands there.
-/

namespace Steppable

variable {cs ds pre word rest : List Char} {i : Nat}

/-- The characters of a span. -/
def Span.extract (s : Span) (cs : List Char) : List Char :=
  (cs.take s.stop).drop s.start

theorem Span.extract_append (pre word rest : List Char) :
    Span.extract ⟨pre.length, (pre ++ word).length⟩ (pre ++ word ++ rest) = word := by
  rw [extract, List.take_left, List.drop_left]

/-! ## Lines and columns -/

/-- The characters since the last line feed. -/
def lastLine (cs : List Char) : List Char :=
  (cs.reverse.takeWhile (· != '\n')).reverse

/-- A point counts the characters before it, the line feeds among them and the characters of its own
line. -/
theorem Position.after_eq (cs : List Char) :
    ({} : Position).after cs = ⟨cs.length, 1 + cs.count '\n', 1 + (lastLine cs).length⟩ := by
  induction cs using List.reverseRecOn with
  | nil => rfl
  | append_singleton cs c ih =>
    rw [after_append, ih]
    show Position.next _ c = _
    by_cases hc : c = '\n'
    · subst hc
      simp [next, nextLine, lastLine, Nat.add_assoc]
    · simp [next, nextColumn, lastLine, hc, Nat.add_assoc]

namespace Token

variable {k : Kind} {c : Char} {t : Token} {ts : List Token} {fuel : Nat}

/-! ## Names and regular expressions -/

/-- A name or a regular expression has the text that it is read from. -/
def Scan.Spelled (s : Scan) (cs : List Char) : Prop :=
  s.kind = .identifier ∨ s.kind = .regex → s.text ++ s.rest = cs

theorem scanHex_spelled (cs : List Char) : (scanHex cs).Spelled ds := by
  unfold scanHex Scan.Spelled
  dsimp only
  split
  · simp
  · split <;> simp

theorem finishNumber_spelled (form : NumberForm) (literal rest : List Char) :
    (finishNumber form literal rest).Spelled ds := by
  unfold finishNumber Scan.Spelled
  split
  · simp
  · split <;> simp

theorem scanAfterPoint_spelled (form : NumberForm) (literal rest : List Char) :
    (scanAfterPoint form literal rest).Spelled ds := by
  unfold scanAfterPoint
  split
  · simp [Scan.Spelled]
  · cases rest with
    | nil => exact finishNumber_spelled form literal []
    | cons c cs =>
      rw [scanExponent_cons]
      split
      · split
        · exact finishNumber_spelled _ _ _
        · simp [Scan.Spelled]
      · exact finishNumber_spelled _ _ _

theorem scanNumber_spelled (first : Char) (cs : List Char) : (scanNumber first cs).Spelled ds := by
  unfold scanNumber scanDecimal
  split
  · exact scanHex_spelled _
  · exact scanHex_spelled _
  · dsimp only
    split <;> exact scanAfterPoint_spelled _ _ _

theorem scanString_spelled (quote : Char) (state : StringState) (read cs : List Char) :
    (scanString quote state read cs).Spelled ds := by
  fun_induction scanString quote state read cs <;> simp_all [Scan.Spelled]

theorem arithOrCompound_spelled (op : Arith) (cs : List Char) :
    (arithOrCompound op cs).Spelled ds := by
  fun_cases arithOrCompound op cs <;> simp [Scan.Spelled]

theorem scanDoubled_spelled {twice : Kind} (ht : twice ≠ .identifier ∧ twice ≠ .regex) (op : Arith)
    (cs : List Char) : (scanDoubled c twice op cs).Spelled ds := by
  unfold scanDoubled
  split
  · split
    · simp [Scan.Spelled, ht]
    · exact arithOrCompound_spelled _ _
  · exact arithOrCompound_spelled _ _

theorem scanComparison_spelled (c : Char) (cs : List Char) : (scanComparison c cs).Spelled ds := by
  fun_cases scanComparison c cs <;>
    first | exact arithOrCompound_spelled _ _ | simp [Scan.Spelled]

theorem scanRegex_spelled (escaped : Bool) (read cs : List Char) :
    (scanRegex escaped read cs).Spelled (read.reverse ++ cs) := by
  fun_induction scanRegex escaped read cs <;> simp_all [Scan.Spelled]

theorem scanSlash_spelled (k : Kind) (cs : List Char) : (scanSlash k cs).Spelled ('/' :: cs) := by
  unfold scanSlash
  split
  · simp [Scan.Spelled, scanLineComment]
  · simp [Scan.Spelled, scanStarComment_kind]
  · split
    · exact arithOrCompound_spelled _ _
    · exact scanRegex_spelled false ['/'] cs

theorem scan_spelled (k : Kind) (c : Char) (cs : List Char) :
    (scan k c cs).Spelled (c :: cs) := by
  unfold scan
  split
  case h_12 =>
    split
    · exact scanNumber_spelled _ _
    · simp [Scan.Spelled]
  case h_13 | h_14 | h_15 | h_16 => exact scanComparison_spelled _ _
  case h_17 | h_18 | h_22 | h_23 => exact scanDoubled_spelled (by simp) _ _
  case h_19 | h_20 | h_21 => exact arithOrCompound_spelled _ _
  case h_24 => exact scanSlash_spelled _ _
  case h_25 | h_26 => exact scanString_spelled _ _ _ _
  case h_27 =>
    split
    · exact scanNumber_spelled _ _
    · split
      · exact fun _ => List.takeWhile_append_dropWhile
      · simp [Scan.Spelled]
  all_goals simp [Scan.Spelled]

/-! ## Places -/

/-- The place of a token in the text `cs` is right. -/
structure Placed (cs : List Char) (t : Token) : Prop where
  inside : t.place.span.stop ≤ cs.length
  nonempty : t.kind ≠ .endOfInput → t.place.span.start < t.place.span.stop
  ending : t.kind = .endOfInput → t.place.span = ⟨cs.length, cs.length⟩
  spelled : t.kind = .identifier ∨ t.kind = .regex → t.text.toList = t.place.span.extract cs
  line : t.place.line = 1 + (cs.take t.place.span.start).count '\n'
  column : t.place.column = 1 + (lastLine (cs.take t.place.span.start)).length

/-- The token is the next one of `cs` from the offset `i` on: there are blanks only before it. -/
structure Next (cs : List Char) (i : Nat) (t : Token) : Prop where
  start : i ≤ t.place.span.start
  blank : ∀ c ∈ Span.extract ⟨i, t.place.span.start⟩ cs, Text.isBlank c = true
  placed : t.Placed cs

/-- The tokens are those of `cs` from the offset `i` on. -/
inductive Cuts (cs : List Char) : Nat → List Token → Prop
  | last {i : Nat} {t : Token} : Next cs i t → t.kind.isLast = true → Cuts cs i [t]
  | cons {i : Nat} {t : Token} {ts : List Token} : Next cs i t → t.kind.isLast = false →
      Cuts cs t.place.span.stop ts → Cuts cs i (t :: ts)

theorem ne_endOfInput (h : k.isLast = false) : k ≠ .endOfInput := by
  rintro rfl
  cases h

theorem Placed.start_le_stop (h : t.Placed cs) : t.place.span.start ≤ t.place.span.stop := by
  by_cases hk : t.kind = .endOfInput
  · simp [h.ending hk]
  · exact Nat.le_of_lt (h.nonempty hk)

/-- A token that is found for `word` behind blanks. -/
theorem next_of_scan {s : Scan} {blanks : List Char} (hb : ∀ c ∈ blanks, Text.isBlank c = true)
    (hw : word ≠ []) (hk : s.kind ≠ .endOfInput) (hs : s.Spelled (word ++ s.rest)) :
    Next (pre ++ blanks ++ word ++ s.rest) pre.length
      (s.token (({} : Position).after (pre ++ blanks))
        (({} : Position).after (pre ++ blanks ++ word))) := by
  have hlen : 0 < word.length := List.length_pos_iff.2 hw
  have hplace : (s.token (({} : Position).after (pre ++ blanks))
      (({} : Position).after (pre ++ blanks ++ word))).place =
        ⟨⟨(pre ++ blanks).length, (pre ++ blanks ++ word).length⟩,
          1 + (pre ++ blanks).count '\n', 1 + (lastLine (pre ++ blanks)).length⟩ := by
    rw [Scan.token, Position.upTo, Position.after_eq, Position.after_eq]
  have htake : (pre ++ blanks ++ word ++ s.rest).take (pre ++ blanks).length = pre ++ blanks := by
    rw [List.append_assoc (pre ++ blanks), List.take_left]
  refine ⟨?_, ?_, ?_, fun _ => ?_, fun h => (hk h).elim, fun h => ?_, ?_, ?_⟩
  · rw [hplace, List.length_append]
    exact Nat.le_add_right _ _
  · rw [hplace, List.append_assoc (pre ++ blanks), Span.extract_append]
    exact hb
  · simp only [hplace, List.length_append]
    omega
  · simp only [hplace, List.length_append]
    omega
  · rw [hplace, Span.extract_append, ← List.append_cancel_right (hs h)]
    exact String.toList_ofList
  · rw [hplace, htake]
  · rw [hplace, htake]

/-- The end of the input stands behind the last blanks. -/
theorem next_of_end {blanks : List Char} (hb : ∀ c ∈ blanks, Text.isBlank c = true) :
    Next (pre ++ blanks) pre.length
      { kind := .endOfInput
        place := (({} : Position).after (pre ++ blanks)).upTo (({} : Position).after (pre ++ blanks)) } := by
  rw [Position.upTo, Position.after_eq]
  have hgap := Span.extract_append pre blanks []
  rw [List.append_nil] at hgap
  refine ⟨?_, ?_, Nat.le_refl _, fun h => (h rfl).elim, fun _ => rfl, by simp, ?_, ?_⟩
  · rw [List.length_append]
    exact Nat.le_add_right _ _
  · rw [hgap]
    exact hb
  · rw [List.take_length]
  · rw [List.take_length]

/-- A scan ends behind what it has taken. -/
theorem Scan.stop_eq {s : Scan} {taken : List Char} (h : taken ++ s.rest = ds) (start : Position) :
    s.stop start (c :: ds) = start.after (c :: taken) := by
  have hlen : (c :: ds).length - s.rest.length = (c :: taken).length := by
    rw [← h, ← List.cons_append, List.length_append, Nat.add_sub_cancel]
  rw [Scan.stop, hlen, ← h, ← List.cons_append, List.take_left]

/-- **The tokens of a text cut it up.** The first part of the text, `pre`, has been read. -/
theorem tokensFrom_cuts (pre : List Char) (hf : rest.length < fuel) :
    Cuts (pre ++ rest) pre.length (tokensFrom true fuel k (({} : Position).after pre) rest) := by
  induction fuel generalizing k pre rest with
  | zero => cases hf
  | succ fuel ih =>
    have hsplit : rest.takeWhile Text.isBlank ++ rest.dropWhile Text.isBlank = rest :=
      List.takeWhile_append_dropWhile
    have hblank : ∀ c ∈ rest.takeWhile Text.isBlank, Text.isBlank c = true :=
      fun c hc => List.mem_takeWhile_imp hc
    rw [tokensFrom, ← Position.after_append]
    generalize rest.takeWhile Text.isBlank = blanks at hsplit hblank
    cases hd : rest.dropWhile Text.isBlank with
    | nil =>
      obtain rfl : blanks = rest := by simpa [hd] using hsplit
      exact .last (next_of_end hblank) rfl
    | cons c ds =>
      obtain ⟨⟨taken, htaken⟩, hne⟩ := scan_fits k c ds
      have hspelled := scan_spelled k c ds
      rw [hd] at hsplit
      dsimp only
      generalize scan k c ds = s at htaken hne hspelled
      have htext : pre ++ rest = pre ++ blanks ++ (c :: taken) ++ s.rest := by
        simp [← hsplit, ← htaken]
      have hrest : s.rest.length < fuel := by
        have h₁ := congrArg List.length hsplit
        have h₂ := congrArg List.length htaken
        simp only [List.length_append, List.length_cons] at h₁ h₂
        omega
      rw [Scan.stop_eq htaken, ← Position.after_append, htext]
      have hnext : Next (pre ++ blanks ++ (c :: taken) ++ s.rest) pre.length (s.token _ _) :=
        next_of_scan hblank (by simp) hne (by rwa [List.cons_append, htaken])
      split
      · rename_i he
        exact .last hnext (by simp [Kind.isLast, Scan.token, he])
      · rename_i he
        have hlater : ∀ k', Cuts _ _ (tokensFrom true fuel k' _ s.rest) := fun k' =>
          ih (pre ++ blanks ++ (c :: taken)) hrest
        have hlast : s.kind.isLast = false := by
          simp [Kind.isLast, he, Kind.isEndOfInput, hne]
        have hend : (s.token (({} : Position).after (pre ++ blanks)) (({} : Position).after
            (pre ++ blanks ++ (c :: taken)))).place.span.stop =
              (pre ++ blanks ++ (c :: taken)).length := by
          rw [Scan.token, Position.upTo, Position.after_eq, Position.after_eq]
        split <;> exact .cons hnext hlast (hend ▸ hlater _)

theorem lex_cuts (source : String) : Cuts source.toList 0 (lex source true) :=
  tokensFrom_cuts [] (Nat.lt_succ_self _)

theorem Cuts.head (h : Cuts cs i (t :: ts)) : Next cs i t := by
  cases h with
  | last hn | cons hn => exact hn

/-- As every token takes a character, there are at most as many as characters, and the last one. -/
theorem Cuts.length_le (h : Cuts cs i ts) : ts.length + i ≤ cs.length + 1 := by
  induction h with
  | last hn _ =>
    have := hn.start
    have := hn.placed.start_le_stop
    have := hn.placed.inside
    simp only [List.length_singleton]
    omega
  | cons hn hl _ ih =>
    have := hn.start
    have := hn.placed.nonempty (ne_endOfInput hl)
    simp only [List.length_cons]
    omega

end Token

/-! ## Reading -/

namespace Cursor

open Token

variable {c : Cursor} {k : Nat}

/-- The tokens from the current one on. -/
def tokens (c : Cursor) : List Token :=
  c.current :: c.ahead

/-- The cursor after some moves forward. -/
def moved (c : Cursor) : Nat → Cursor
  | 0 => c
  | k + 1 => (c.moved k).forward

theorem forward_of_atLast (h : c.atLast = true) : c.forward = c := by
  rw [forward, if_pos h]

/-- A cursor that is not at the last token moves to the next one. -/
theorem cuts_forward (h : Cuts cs i c.tokens) (hl : c.atLast = false) :
    Cuts cs c.current.place.span.stop c.forward.tokens ∧
      c.forward.tokens.length + 1 = c.tokens.length := by
  obtain ⟨current, ahead, previous, number, comments⟩ := c
  unfold tokens at h
  cases h with
  | last _ hk => simp [atLast, hk] at hl
  | cons _ _ ht =>
    cases ahead with
    | nil => cases ht
    | cons t ts =>
      have hl' : current.kind.isLast = false := hl
      simp only [Cursor.forward, atLast, hl', Bool.false_eq_true, if_false, tokens]
      exact ⟨ht, rfl⟩

/-- A cursor before the last token only is at it. -/
theorem atLast_of_cuts (h : Cuts cs i c.tokens) (hc : c.tokens.length ≤ 1) : c.atLast = true := by
  cases hl : c.atLast with
  | true => rfl
  | false =>
    have := (cuts_forward h hl).2
    simp only [tokens, List.length_cons] at this hc
    omega

/-- Wherever a cursor is, the tokens from there on cut up what is left; there is one less with each
move. -/
theorem cuts_moved (h : Cuts cs i c.tokens) (k : Nat) :
    (∃ j, Cuts cs j (c.moved k).tokens) ∧
      ((c.moved k).atLast = true ∨ (c.moved k).tokens.length + k = c.tokens.length) := by
  induction k with
  | zero => exact ⟨⟨i, h⟩, .inr rfl⟩
  | succ k ih =>
    obtain ⟨⟨j, hj⟩, hk⟩ := ih
    rw [Cursor.moved]
    cases hl : (c.moved k).atLast with
    | true =>
      rw [forward_of_atLast hl]
      exact ⟨⟨j, hj⟩, .inl hl⟩
    | false =>
      obtain ⟨hf, hlen⟩ := cuts_forward hj hl
      refine ⟨⟨_, hf⟩, .inr ?_⟩
      have := hk.resolve_left (by simp [hl])
      omega

/-- The cursor that has moved `k` times is `c k`: it reads the text `cs` without losing a character.
-/
structure Lossless (cs : List Char) (c : Nat → Cursor) : Prop where
  ends : ∀ k, cs.length ≤ k → (c k).atLast = true
  stays : ∀ k, (c k).atLast = true → c (k + 1) = c k
  placed : ∀ k, (c k).current.Placed cs
  first : Next cs 0 (c 0).current
  next : ∀ k, (c k).atLast = false →
    Next cs (c k).current.place.span.stop (c (k + 1)).current

/-- **No character is lost** when a text is read with its comments. -/
theorem tokens_lossless (source : String) :
    Lossless source.toList (ofSource source true).moved := by
  have h : Cuts source.toList 0 (ofSource source true).tokens := by
    have hlex := lex_cuts source
    unfold ofSource start tokens
    cases hts : lex source true with
    | nil =>
      rw [hts] at hlex
      cases hlex
    | cons t ts => exact hts ▸ hlex
  refine ⟨fun k hk => ?_, fun k hl => forward_of_atLast hl, fun k => ?_, h.head,
    fun k hl => ?_⟩
  · obtain ⟨⟨j, hj⟩, hl | hlen⟩ := cuts_moved h k
    · exact hl
    · have := h.length_le
      exact atLast_of_cuts hj (by omega)
  · obtain ⟨⟨j, hj⟩, -⟩ := cuts_moved h k
    exact hj.head.placed
  · obtain ⟨⟨j, hj⟩, -⟩ := cuts_moved h k
    exact (cuts_forward hj hl).1.head

example : ((ofSource "a\n /* b\n */ + c" true).moved 3).current.place = ⟨⟨14, 15⟩, 3, 7⟩ := by
  decide +kernel

end Cursor

end Steppable
