import Steppable.Token.Lexer

/-!
# Tokens line by line

A token other than a string or a comment between stars cannot see past the end of its line. So what a
scanner finds stays the same when the text is continued on a new line, unless the string was not
closed, which is an error, or the comment was not (`scan_line`). The tokens of a text and of a
continuation are those of the two (`bareTokens_append`).
-/

namespace Steppable.Token

variable {k : Kind} {c : Char} {cs ds read : List Char} {p : Char → Bool} {t : Token}
  {ts : List Token}

/-- The scan of a text that goes on with `ds`. -/
def Scan.before (s : Scan) (ds : List Char) : Scan :=
  { s with rest := s.rest ++ ds }

variable {d : Char}

theorem takeWhile_stop (hp : p d = false) (cs ds : List Char) :
    (cs ++ d :: ds).takeWhile p = cs.takeWhile p := by
  induction cs with
  | nil => simp [hp]
  | cons c cs ih => simp only [List.cons_append, List.takeWhile_cons, ih]

theorem dropWhile_stop (hp : p d = false) (cs ds : List Char) :
    (cs ++ d :: ds).dropWhile p = cs.dropWhile p ++ d :: ds := by
  induction cs with
  | nil => simp [hp]
  | cons c cs ih =>
    simp only [List.cons_append, List.dropWhile_cons, ih]
    split <;> rfl

theorem nextIs_stop (hp : p d = false) (cs ds : List Char) :
    nextIs p (cs ++ d :: ds) = nextIs p cs := by
  cases cs with
  | nil => exact hp
  | cons => rfl

/-! ## Numbers and names -/

/-- Whether the character ends every number and name that it follows. -/
def isDelimiter (d : Char) : Bool :=
  !isNamePart d && d != '.' && d != '+' && d != '-'

theorem isNameStart_iff : isNameStart c = true ↔ c.toNat = 0x5f ∨ c.toNat = 0x24 ∨
    (0x41 ≤ c.toNat ∧ c.toNat ≤ 0x5a) ∨ (0x61 ≤ c.toNat ∧ c.toNat ≤ 0x7a) := by
  unfold isNameStart
  delta Char.isAlpha Char.isUpper Char.isLower
  simp only [UInt32.le_iff_toNat_le, Bool.or_eq_true, Bool.and_eq_true, decide_eq_true_eq,
    ge_iff_le, beq_iff_eq, ← Char.toNat_inj, Char.toNat]
  simp
  omega

theorem isDigit_iff : c.isDigit = true ↔ 0x30 ≤ c.toNat ∧ c.toNat ≤ 0x39 := by
  simp only [Char.isDigit, UInt32.le_iff_toNat_le, Bool.and_eq_true, decide_eq_true_eq, ge_iff_le,
    Char.toNat]
  simp

theorem isNamePart_iff : isNamePart c = true ↔ c.toNat = 0x5f ∨ c.toNat = 0x24 ∨
    (0x41 ≤ c.toNat ∧ c.toNat ≤ 0x5a) ∨ (0x61 ≤ c.toNat ∧ c.toNat ≤ 0x7a) ∨
      (0x30 ≤ c.toNat ∧ c.toNat ≤ 0x39) := by
  rw [isNamePart, Bool.or_eq_true, isNameStart_iff, isDigit_iff]
  omega

theorem isNamePart_of_hexValue (h : (Numeric.hexValue? d).isSome = true) : isNamePart d = true := by
  unfold Numeric.hexValue? at h
  have hr : ('0' ≤ d ∧ d ≤ '9') ∨ ('a' ≤ d ∧ d ≤ 'f') ∨ ('A' ≤ d ∧ d ≤ 'F') := by grind
  simp only [Char.le_def, UInt32.le_iff_toNat_le] at hr
  rw [isNamePart_iff]
  simp at hr
  omega

section Numbers

variable (hd : isDelimiter d = true)
include hd

theorem delimiter_namePart : isNamePart d = false := by
  simp only [isDelimiter, Bool.and_eq_true, Bool.not_eq_true'] at hd
  exact hd.1.1.1

theorem delimiter_digit : d.isDigit = false :=
  (Bool.or_eq_false_iff.1 (delimiter_namePart hd)).2

theorem delimiter_hex : (Numeric.hexValue? d).isSome = false :=
  Bool.eq_false_iff.2 fun h => by
    have := isNamePart_of_hexValue h
    simp [delimiter_namePart hd] at this

theorem delimiter_point : (d == '.') = false := by
  simp only [isDelimiter, Bool.and_eq_true] at hd
  simpa using hd.1.1.2

/-- A delimiter is none of the given characters that can be in a number or a name. -/
theorem delimiter_ne (hc : isDelimiter c = false) : d ≠ c := by
  rintro rfl
  simp [hd] at hc

theorem scanHex_stop (cs ds : List Char) : scanHex (cs ++ d :: ds) = (scanHex cs).before (d :: ds) := by
  unfold scanHex
  rw [takeWhile_stop (delimiter_hex hd), dropWhile_stop (delimiter_hex hd)]
  dsimp only
  rw [nextIs_stop (delimiter_namePart hd)]
  split
  · rfl
  · split <;> rfl

theorem finishNumber_stop {form : NumberForm} {literal : List Char} (rest ds : List Char) :
    finishNumber form literal (rest ++ d :: ds) =
      (finishNumber form literal rest).before (d :: ds) := by
  unfold finishNumber
  rw [nextIs_stop (delimiter_namePart hd)]
  split
  · rfl
  · split <;> rfl

omit hd in
/-- The sign of an exponent and what comes after it. -/
def splitSign : List Char → List Char × List Char
  | '+' :: ds => (['+'], ds)
  | '-' :: ds => (['-'], ds)
  | ds => ([], ds)

theorem splitSign_stop (cs ds : List Char) :
    splitSign (cs ++ d :: ds) = ((splitSign cs).1, (splitSign cs).2 ++ d :: ds) := by
  cases cs with
  | nil =>
    have := delimiter_ne hd (c := '+') rfl
    have := delimiter_ne hd (c := '-') rfl
    simp_all [splitSign]
  | cons c cs =>
    simp only [List.cons_append, splitSign]
    split <;> rename_i h <;> simp_all

omit hd in
theorem scanExponent_cons {form : NumberForm} {literal : List Char} (c : Char) (cs : List Char) :
    scanExponent form literal (c :: cs) =
      if c == 'e' || c == 'E' then
        if nextIs Char.isDigit (splitSign cs).2 then
          finishNumber .float (literal ++ c :: (splitSign cs).1 ++
            (splitSign cs).2.takeWhile Char.isDigit) ((splitSign cs).2.dropWhile Char.isDigit)
        else { kind := .error .unterminatedNumber, rest := (splitSign cs).2 }
      else finishNumber form literal (c :: cs) :=
  rfl

theorem scanExponent_stop {form : NumberForm} {literal : List Char} (cs ds : List Char) :
    scanExponent form literal (cs ++ d :: ds) =
      (scanExponent form literal cs).before (d :: ds) := by
  cases cs with
  | nil =>
    have he := delimiter_ne hd (c := 'e') rfl
    have hE := delimiter_ne hd (c := 'E') rfl
    rw [List.nil_append, scanExponent_cons, if_neg (by simp [he, hE])]
    exact finishNumber_stop hd [] ds
  | cons c cs =>
    rw [List.cons_append, scanExponent_cons, scanExponent_cons, splitSign_stop hd]
    dsimp only
    rw [nextIs_stop (delimiter_digit hd), takeWhile_stop (delimiter_digit hd),
      dropWhile_stop (delimiter_digit hd)]
    split
    · split
      · exact finishNumber_stop hd _ ds
      · rfl
    · exact finishNumber_stop hd (c :: cs) ds

theorem scanAfterPoint_stop {form : NumberForm} {literal : List Char} (rest ds : List Char) :
    scanAfterPoint form literal (rest ++ d :: ds) =
      (scanAfterPoint form literal rest).before (d :: ds) := by
  unfold scanAfterPoint
  rw [nextIs_stop (p := (· == '.')) (delimiter_point hd), scanExponent_stop hd]
  split <;> rfl

theorem scanDecimal_stop (first : Char) (cs ds : List Char) :
    scanDecimal first (cs ++ d :: ds) = (scanDecimal first cs).before (d :: ds) := by
  unfold scanDecimal
  rw [takeWhile_stop (delimiter_digit hd), dropWhile_stop (delimiter_digit hd)]
  dsimp only
  cases first == '.' with
  | true => exact scanAfterPoint_stop hd _ ds
  | false =>
    cases cs.dropWhile Char.isDigit with
    | nil =>
      have hne := delimiter_ne hd (c := '.') rfl
      have hstop : scanAfterPoint .integer (first :: cs.takeWhile Char.isDigit) ([] ++ d :: ds) = _ :=
        scanAfterPoint_stop hd [] ds
      simp_all
    | cons c rest =>
      by_cases hc : c = '.'
      · subst hc
        simp only [List.cons_append, takeWhile_stop (delimiter_digit hd),
          dropWhile_stop (delimiter_digit hd)]
        exact scanAfterPoint_stop hd _ ds
      · simp only [List.cons_append]
        split <;> simp_all
        exact scanAfterPoint_stop hd (c :: rest) ds

theorem scanNumber_stop (first : Char) (cs ds : List Char) :
    scanNumber first (cs ++ d :: ds) = (scanNumber first cs).before (d :: ds) := by
  unfold scanNumber
  cases first == '0' with
  | false => exact scanDecimal_stop hd first cs ds
  | true =>
    cases cs with
    | nil =>
      have := delimiter_ne hd (c := 'x') rfl
      have := delimiter_ne hd (c := 'X') rfl
      have := scanDecimal_stop hd first [] ds
      simp_all
    | cons c cs =>
      have := scanDecimal_stop hd first (c :: cs) ds
      have := scanHex_stop hd cs ds
      simp only [List.cons_append] at *
      split <;> split <;> simp_all

end Numbers

theorem scanName_stop (hd : isNamePart d = false) (cs ds : List Char) :
    scanName (cs ++ d :: ds) = (scanName cs).before (d :: ds) := by
  unfold scanName
  rw [takeWhile_stop hd, dropWhile_stop hd]
  rfl

/-! ## Strings, comments and regular expressions -/

/-- A string that is closed ends there, whatever follows. -/
theorem scanString_append {quote : Char} {state : StringState}
    (h : (scanString quote state read cs).kind.isError = false) :
    scanString quote state read (cs ++ ds) = (scanString quote state read cs).before ds := by
  fun_induction scanString quote state read cs with
  | case15 | case17 => grind [scanString]
  | _ => simp_all [scanString, Kind.isError, Scan.before]

theorem scanLineComment_line (cs ds : List Char) :
    scanLineComment (cs ++ '\n' :: ds) = (scanLineComment cs).before ('\n' :: ds) := by
  unfold scanLineComment
  rw [takeWhile_stop rfl, dropWhile_stop rfl]
  rfl

theorem scanStarComment_kind (read cs : List Char) : (scanStarComment read cs).kind = .starComment := by
  fun_induction scanStarComment read cs <;> trivial

/-- Either the comment is closed, and then it ends there whatever follows, or it takes all of the
text. -/
theorem scanStarComment_append (read cs ds : List Char) :
    (scanStarComment read (cs ++ ds) = (scanStarComment read cs).before ds ∧
      (scanStarComment read cs).text.length + (scanStarComment read cs).rest.length + 2 =
        read.length + cs.length) ∨
    ((scanStarComment read cs).rest = [] ∧
      (scanStarComment read cs).text.length = read.length + cs.length) := by
  fun_induction scanStarComment read cs with
  | case1 read cs =>
    refine .inl ⟨by simp [scanStarComment, Scan.before], ?_⟩
    simp only [List.length_reverse, List.length_cons]
    omega
  | case2 read c cs hne ih =>
    have hlen : (c :: read).length + cs.length = read.length + (c :: cs).length := by
      simp only [List.length_cons]
      omega
    rw [hlen] at ih
    refine ih.imp (fun h => ⟨?_, h.2⟩) id
    rw [← h.1]
    cases cs with
    | nil => simp [scanStarComment] at h
    | cons d cs =>
      rw [List.cons_append, List.cons_append, scanStarComment]
      simpa using hne
  | case3 read => exact .inr (by simp)

theorem scanRegex_line (escaped : Bool) (read cs ds : List Char) :
    scanRegex escaped read (cs ++ '\n' :: ds) = (scanRegex escaped read cs).before ('\n' :: ds) := by
  fun_induction scanRegex escaped read cs <;>
    simp_all [scanRegex, Scan.before, takeWhile_stop (p := isRegexFlag) (d := '\n') rfl, dropWhile_stop (p := isRegexFlag) (d := '\n') rfl]

/-! ## Operators -/

theorem arithOrCompound_line (op : Arith) (cs ds : List Char) :
    arithOrCompound op (cs ++ '\n' :: ds) = (arithOrCompound op cs).before ('\n' :: ds) := by
  cases cs with
  | nil => rfl
  | cons c cs =>
    simp only [List.cons_append, arithOrCompound]
    split <;> rename_i h <;> simp_all [Scan.before]

theorem scanDoubled_line (c : Char) (hc : c ≠ '\n') (twice : Kind) (op : Arith) (cs ds : List Char) :
    scanDoubled c twice op (cs ++ '\n' :: ds) = (scanDoubled c twice op cs).before ('\n' :: ds) := by
  cases cs with
  | nil => simp [scanDoubled, hc.symm]; rfl
  | cons d cs =>
    simp only [List.cons_append, scanDoubled]
    split
    · rfl
    · exact arithOrCompound_line op (d :: cs) ds

theorem scanComparison_line (c : Char) (cs ds : List Char) :
    scanComparison c (cs ++ '\n' :: ds) = (scanComparison c cs).before ('\n' :: ds) := by
  fun_cases scanComparison c cs <;>
    simp_all [scanComparison, Scan.before, arithOrCompound_line, List.append_eq_cons_iff]

theorem scanSlash_line (hc : (scanSlash k cs).kind = .starComment →
      cs.length + 1 = (scanSlash k cs).text.length + (scanSlash k cs).rest.length + 4) :
    scanSlash k (cs ++ '\n' :: ds) = (scanSlash k cs).before ('\n' :: ds) := by
  revert hc
  fun_cases scanSlash k cs
  · exact fun _ => scanLineComment_line _ _
  · rename_i cs
    intro hc
    rcases scanStarComment_append [] cs ('\n' :: ds) with h | h
    · exact h.1
    · have := hc (scanStarComment_kind [] cs)
      simp [h] at this
  · rename_i h₁ h₂ hk
    intro _
    simp_all [scanSlash, List.append_eq_cons_iff, arithOrCompound_line]
  · rename_i h₁ h₂ hk
    intro _
    simp_all [scanSlash, List.append_eq_cons_iff, scanRegex_line]

/-! ## One token -/

theorem scan_line (h : (scan k c cs).kind.isError = false)
    (hc : (scan k c cs).kind = .starComment →
      cs.length + 1 = (scan k c cs).text.length + (scan k c cs).rest.length + 4)
    (ds : List Char) : scan k c (cs ++ '\n' :: ds) = (scan k c cs).before ('\n' :: ds) := by
  revert h hc
  unfold scan
  split
  all_goals intro h hc
  all_goals try rfl
  case h_12 =>
    rw [nextIs_stop rfl]
    split
    · exact scanNumber_stop rfl _ _ _
    · rfl
  case h_13 | h_14 | h_15 | h_16 => exact scanComparison_line _ _ _
  case h_17 | h_18 | h_22 | h_23 => exact scanDoubled_line _ (by decide) _ _ _ _
  case h_19 | h_20 | h_21 => exact arithOrCompound_line _ _ _
  case h_24 => exact scanSlash_line hc
  case h_25 | h_26 => exact scanString_append h
  case h_27 =>
    split
    · exact scanNumber_stop rfl _ _ _
    · split
      · exact scanName_stop rfl (c :: cs) ds
      · rfl

/-! ## What a scanner takes -/

/-- The scan leaves what stands at the end of `cs`. It is not the end of the input. -/
def Scan.Fits (s : Scan) (cs : List Char) : Prop :=
  s.rest <:+ cs ∧ s.kind ≠ .endOfInput

theorem Scan.Fits.mono {s : Scan} (h : s.Fits cs) (hs : cs <:+ ds) : s.Fits ds :=
  ⟨h.1.trans hs, h.2⟩

theorem length_dropWhile_le (p : Char → Bool) (cs : List Char) :
    (cs.dropWhile p).length ≤ cs.length :=
  (List.dropWhile_suffix p).length_le

theorem scanHex_fits (cs : List Char) : (scanHex cs).Fits cs := by
  have := List.dropWhile_suffix (l := cs) fun c => (Numeric.hexValue? c).isSome
  unfold scanHex
  dsimp only
  split
  · exact ⟨this, by simp⟩
  · split <;> exact ⟨this, by simp⟩

theorem finishNumber_fits (form : NumberForm) (literal rest : List Char) :
    (finishNumber form literal rest).Fits rest := by
  unfold finishNumber
  split
  · exact ⟨List.suffix_rfl, by simp⟩
  · split <;> exact ⟨List.suffix_rfl, by simp⟩

theorem splitSign_suffix (cs : List Char) : (splitSign cs).2 <:+ cs := by
  unfold splitSign
  split <;> simp

theorem scanExponent_fits (form : NumberForm) (literal cs : List Char) :
    (scanExponent form literal cs).Fits cs := by
  cases cs with
  | nil => exact finishNumber_fits form literal []
  | cons c cs =>
    have hs : (splitSign cs).2 <:+ c :: cs := (splitSign_suffix cs).trans (List.suffix_cons c cs)
    rw [scanExponent_cons]
    split
    · split
      · exact (finishNumber_fits _ _ _).mono ((List.dropWhile_suffix _).trans hs)
      · exact ⟨hs, by simp⟩
    · exact finishNumber_fits _ _ _

theorem scanAfterPoint_fits (form : NumberForm) (literal rest : List Char) :
    (scanAfterPoint form literal rest).Fits rest := by
  unfold scanAfterPoint
  split
  · exact ⟨List.suffix_rfl, by simp⟩
  · exact scanExponent_fits _ _ _

theorem scanDecimal_fits (first : Char) (cs : List Char) : (scanDecimal first cs).Fits cs := by
  have hd := List.dropWhile_suffix (l := cs) Char.isDigit
  unfold scanDecimal
  dsimp only
  split
  · rename_i rest _ heq
    rw [heq] at hd
    exact (scanAfterPoint_fits _ _ _).mono
      ((List.dropWhile_suffix _).trans ((List.suffix_cons '.' rest).trans hd))
  · exact (scanAfterPoint_fits _ _ _).mono hd

theorem scanNumber_fits (first : Char) (cs : List Char) : (scanNumber first cs).Fits cs := by
  unfold scanNumber
  split
  · exact (scanHex_fits _).mono (List.suffix_cons _ _)
  · exact (scanHex_fits _).mono (List.suffix_cons _ _)
  · exact scanDecimal_fits _ _

theorem kindOfName_ne_end (name : List Char) : kindOfName name ≠ .endOfInput := by
  grind [kindOfName]

theorem scanName_fits (hc : isNameStart c = true) (cs : List Char) : (scanName (c :: cs)).Fits cs := by
  refine ⟨?_, kindOfName_ne_end _⟩
  have hp : isNamePart c = true := by simp [isNamePart, hc]
  simp only [scanName, List.dropWhile_cons, hp, if_true]
  exact List.dropWhile_suffix _

theorem scanString_fits (quote : Char) (state : StringState) (read cs : List Char) :
    (scanString quote state read cs).Fits cs := by
  fun_induction scanString quote state read cs <;>
    grind [Scan.Fits, List.IsSuffix.trans, List.suffix_cons]

theorem scanStarComment_fits (read cs : List Char) : (scanStarComment read cs).Fits cs := by
  refine ⟨?_, by simp [scanStarComment_kind]⟩
  fun_induction scanStarComment read cs <;> grind [List.IsSuffix.trans, List.suffix_cons]

theorem scanRegex_fits (escaped : Bool) (read cs : List Char) :
    (scanRegex escaped read cs).Fits cs := by
  have hd (cs : List Char) : cs.dropWhile isRegexFlag <:+ cs := List.dropWhile_suffix _
  fun_induction scanRegex escaped read cs <;>
    grind [Scan.Fits, List.IsSuffix.trans, List.suffix_cons]

theorem arithOrCompound_fits (op : Arith) (cs : List Char) : (arithOrCompound op cs).Fits cs := by
  fun_cases arithOrCompound op cs <;> simp [Scan.Fits]

theorem scanDoubled_fits {twice : Kind} (ht : twice ≠ .endOfInput) (op : Arith) (cs : List Char) :
    (scanDoubled c twice op cs).Fits cs := by
  unfold scanDoubled
  split
  · split
    · exact ⟨List.suffix_cons _ _, ht⟩
    · exact arithOrCompound_fits _ _
  · exact arithOrCompound_fits _ _

theorem scanComparison_fits (c : Char) (cs : List Char) : (scanComparison c cs).Fits cs := by
  fun_cases scanComparison c cs <;>
    grind [Scan.Fits, arithOrCompound_fits, List.IsSuffix.trans, List.suffix_cons]

theorem scanSlash_fits (k : Kind) (cs : List Char) : (scanSlash k cs).Fits cs := by
  unfold scanSlash
  split
  · exact ⟨(List.dropWhile_suffix _).trans (List.suffix_cons _ _), by simp [scanLineComment]⟩
  · exact (scanStarComment_fits _ _).mono (List.suffix_cons _ _)
  · split
    · exact arithOrCompound_fits _ _
    · exact scanRegex_fits _ _ _

theorem scan_fits (k : Kind) (c : Char) (cs : List Char) : (scan k c cs).Fits cs := by
  unfold scan
  split
  case h_12 =>
    split
    · exact scanNumber_fits _ _
    · exact ⟨List.suffix_rfl, by simp⟩
  case h_13 | h_14 | h_15 | h_16 => exact scanComparison_fits _ _
  case h_17 | h_18 | h_22 | h_23 => exact scanDoubled_fits (by simp) _ _
  case h_19 | h_20 | h_21 => exact arithOrCompound_fits _ _
  case h_24 => exact scanSlash_fits _ _
  case h_25 | h_26 => exact scanString_fits _ _ _ _
  case h_27 =>
    split
    · exact scanNumber_fits _ _
    · split
      · rename_i hc
        exact scanName_fits hc cs
      · exact ⟨List.suffix_rfl, by simp⟩
  all_goals exact ⟨List.suffix_rfl, by simp⟩

/-! ## The whole text -/

/-- The token without its place. -/
def bare (t : Token) : Token :=
  { t with place := {} }

/-- A list of tokens as a text has it: the last one, and no other, ends the text. -/
def Proper (ts : List Token) : Prop :=
  ∃ us e, ts = us ++ [e] ∧ e.kind.isLast = true ∧ ∀ u ∈ us, u.kind.isLast = false

theorem Proper.tail (h : Proper (t :: ts)) (ht : t.kind.isLast = false) : Proper ts := by
  obtain ⟨us, e, hts, he, hus⟩ := h
  cases us with
  | nil =>
    obtain ⟨rfl, -⟩ := List.cons.inj hts
    simp [he] at ht
  | cons u us =>
    obtain ⟨-, rfl⟩ := List.cons.inj hts
    exact ⟨us, e, rfl, he, fun u hu => hus u (List.mem_cons_of_mem _ hu)⟩

theorem Proper.cons (h : Proper ts) (ht : t.kind.isLast = false) : Proper (t :: ts) := by
  obtain ⟨us, e, rfl, he, hus⟩ := h
  exact ⟨t :: us, e, rfl, he, by simpa [ht] using hus⟩

theorem Proper.ne_nil (h : Proper ts) : ts ≠ [] := by
  rintro rfl
  obtain ⟨us, e, hts, -⟩ := h
  simp at hts

theorem Proper.singleton (h : Proper (t :: ts)) (ht : t.kind.isLast = true) : ts = [] := by
  obtain ⟨us, e, hts, -, hus⟩ := h
  cases us with
  | nil => exact (List.cons.inj hts).2
  | cons u us =>
    obtain ⟨rfl, -⟩ := List.cons.inj hts
    simp [hus t (by simp)] at ht

/-- A text that ends with the end of the input has no error. -/
theorem Proper.isError {e : Token} (h : Proper ts) (hs : [e] <:+ ts) (he : e.kind = .endOfInput) :
    ∀ t ∈ ts, t.kind.isError = false := by
  obtain ⟨us, l, rfl, -, hus⟩ := h
  obtain rfl : e = l := by
    obtain ⟨vs, hvs⟩ := hs
    exact (List.append_inj' hvs rfl).2 |> List.cons.inj |>.1
  intro t ht
  rcases List.mem_append.1 ht with ht | ht
  · exact (Bool.or_eq_false_iff.1 (hus t ht)).1
  · rw [List.mem_singleton.1 ht, he]
    rfl

/-- The token that the scan found, without its place. -/
def Scan.bare (s : Scan) : Token :=
  { kind := s.kind, text := String.ofList s.text, number := s.number, place := {} }

/-- The end of the input, without its place. -/
def ending : Token :=
  { kind := .endOfInput, place := {} }

/-- The tokens of `cs` after a token of kind `k`, without comments and places. -/
def bareTokens (k : Kind) (cs : List Char) : List Token :=
  (tokensFrom false (cs.length + 1) k {} cs).map bare

/-- Neither the fuel, if there is enough, nor the place where the text begins matters. -/
theorem tokensFrom_congr {fuel fuel' : Nat} {here here' : Position} (h : cs.length < fuel)
    (h' : cs.length < fuel') :
    (tokensFrom false fuel k here cs).map bare = (tokensFrom false fuel' k here' cs).map bare := by
  induction fuel generalizing fuel' k here here' cs with
  | zero => cases h
  | succ fuel ih =>
    obtain ⟨fuel', rfl⟩ : ∃ f, fuel' = f + 1 := ⟨fuel' - 1, by omega⟩
    have hd := length_dropWhile_le Text.isBlank cs
    simp only [tokensFrom]
    cases hcs : cs.dropWhile Text.isBlank with
    | nil => rfl
    | cons c ds =>
      have hr := (scan_fits k c ds).1.length_le
      rw [hcs, List.length_cons] at hd
      dsimp only
      split
      · rfl
      · split
        · exact ih (by omega) (by omega)
        · exact congrArg (List.cons _) (ih (by omega) (by omega))

/-- The tokens of a text begin with the first one behind the blanks. -/
theorem bareTokens_eq (k : Kind) (cs : List Char) :
    bareTokens k cs = match cs.dropWhile Text.isBlank with
      | [] => [ending]
      | c :: cs =>
        if (scan k c cs).kind.isError then [(scan k c cs).bare]
        else if (scan k c cs).kind.isComment then bareTokens k (scan k c cs).rest
        else (scan k c cs).bare :: bareTokens (scan k c cs).kind (scan k c cs).rest := by
  have hd := length_dropWhile_le Text.isBlank cs
  rw [bareTokens, tokensFrom]
  cases hcs : cs.dropWhile Text.isBlank with
  | nil => rfl
  | cons c ds =>
    have hr := (scan_fits k c ds).1.length_le
    rw [hcs, List.length_cons] at hd
    dsimp only
    split
    · rfl
    · split
      · exact tokensFrom_congr (by omega) (by omega)
      · exact congrArg (List.cons _) (tokensFrom_congr (by omega) (by omega))

/-- The blanks before a text do not matter. -/
theorem bareTokens_blank (hc : Text.isBlank c = true) : bareTokens k (c :: cs) = bareTokens k cs := by
  rw [bareTokens_eq, bareTokens_eq k cs, List.dropWhile_cons, if_pos hc]

/-- Of the token before a text only this matters: whether it can end an operand. -/
theorem scan_congr {k' : Kind} (h : endsOperand k = endsOperand k') : scan k c cs = scan k' c cs := by
  unfold scan
  split <;> try rfl
  unfold scanSlash
  split <;> try rfl
  rw [h]

theorem bareTokens_congr {k' : Kind} (h : endsOperand k = endsOperand k') :
    bareTokens k cs = bareTokens k' cs := by
  induction hn : cs.length using Nat.strongRecOn generalizing cs with
  | ind n ih =>
    have hd := length_dropWhile_le Text.isBlank cs
    rw [bareTokens_eq, bareTokens_eq k' cs]
    cases hcs : cs.dropWhile Text.isBlank with
    | nil => rfl
    | cons c ds =>
      have hr := (scan_fits k' c ds).1.length_le
      rw [hcs, List.length_cons] at hd
      dsimp only
      rw [scan_congr h, ih _ (by omega) rfl]

/-- The last token of a text, and no other, ends it. -/
theorem bareTokens_proper (k : Kind) (cs : List Char) : Proper (bareTokens k cs) := by
  induction hn : cs.length using Nat.strongRecOn generalizing k cs with
  | ind n ih =>
    have hd := length_dropWhile_le Text.isBlank cs
    rw [bareTokens_eq]
    cases hcs : cs.dropWhile Text.isBlank with
    | nil => exact ⟨[], ending, rfl, rfl, by simp⟩
    | cons c ds =>
      have hr := scan_fits k c ds
      have hlt := hr.1.length_le
      rw [hcs, List.length_cons] at hd
      dsimp only
      split
      · rename_i he
        exact ⟨[], _, rfl, by simp [Scan.bare, Kind.isLast, he], by simp⟩
      · rename_i he
        split
        · exact ih _ (by omega) _ _ rfl
        · refine (ih _ (by omega) _ _ rfl).cons ?_
          have hend : (scan k c ds).kind.isEndOfInput = false := beq_eq_false_iff_ne.2 hr.2
          simp [Scan.bare, Kind.isLast, he, hend]

/-- Whether the token is no comment between stars without its end. With the marks at its two ends a
comment is four characters longer than its text. -/
def isClosed (t : Token) : Bool :=
  t.kind != .starComment || t.place.span.stop == t.place.span.start + t.text.length + 4

theorem length_of_isClosed {start : Position} {s : Scan} (hs : s.Fits cs)
    (h : (s.token start (s.stop start (c :: cs))).isClosed = true) (hk : s.kind = .starComment) :
    cs.length + 1 = s.text.length + s.rest.length + 4 := by
  have hle := hs.1.length_le
  simp only [isClosed, Scan.token, hk, Scan.stop, Position.upTo, Position.offset_after,
    List.length_take, List.length_cons, String.length_ofList, bne_self_eq_false, Bool.false_or,
    beq_iff_eq] at h
  omega

/-- The kind of the token before what the scan leaves: a comment does not count. -/
def Scan.after (s : Scan) (k : Kind) : Kind :=
  if s.kind.isComment then k else s.kind

theorem bareTokens_cons (hcs : cs.dropWhile Text.isBlank = c :: ds)
    (h : (scan k c ds).kind.isError = false) :
    bareTokens k cs = (if (scan k c ds).kind.isComment then [] else [(scan k c ds).bare]) ++
      bareTokens ((scan k c ds).after k) (scan k c ds).rest := by
  rw [bareTokens_eq, hcs]
  simp only [h, Scan.after, Bool.false_eq_true, if_false]
  split <;> rfl

/-- With comments every token is in the list. -/
theorem tokensFrom_cons (fuel : Nat) (here : Position) (hcs : cs.dropWhile Text.isBlank = c :: ds)
    (h : (scan k c ds).kind.isError = false) :
    ∃ start, tokensFrom true (fuel + 1) k here cs =
      (scan k c ds).token start ((scan k c ds).stop start (c :: ds)) ::
        tokensFrom true fuel ((scan k c ds).after k) ((scan k c ds).stop start (c :: ds))
          (scan k c ds).rest := by
  refine ⟨here.after (cs.takeWhile Text.isBlank), ?_⟩
  rw [tokensFrom, hcs]
  simp only [h, Scan.after, Bool.false_eq_true, if_false, if_true]
  split <;> rfl

/-- **The tokens of a text that goes on with a new line** are those of the text, but for its end, and
those of the rest. The text has no error and no comment that is not closed. -/
theorem bareTokens_append {fuel : Nat} {here : Position} (hf : cs.length < fuel)
    (hc : ∀ t ∈ tokensFrom true fuel k here cs, t.isClosed = true)
    (he : ∀ t ∈ bareTokens k cs, t.kind.isError = false) (ds : List Char) :
    ∃ k', bareTokens k (cs ++ '\n' :: ds) =
      (bareTokens k cs).dropLast ++ bareTokens k' ('\n' :: ds) := by
  induction fuel generalizing k here cs with
  | zero => cases hf
  | succ fuel ih =>
    have hd := length_dropWhile_le Text.isBlank cs
    cases hcs : cs.dropWhile Text.isBlank with
    | nil =>
      refine ⟨k, ?_⟩
      rw [bareTokens_eq k cs, hcs, bareTokens_eq k (cs ++ '\n' :: ds), List.dropWhile_append, hcs,
        bareTokens_eq k ('\n' :: ds)]
      rfl
    | cons c cs' =>
      have hcs' : (cs ++ '\n' :: ds).dropWhile Text.isBlank = c :: (cs' ++ '\n' :: ds) := by
        rw [List.dropWhile_append, hcs]
        rfl
      have hfits := scan_fits k c cs'
      have hr := hfits.1.length_le
      rw [hcs, List.length_cons] at hd
      have herr : (scan k c cs').kind.isError = false := by
        rw [bareTokens_eq, hcs] at he
        refine Bool.eq_false_iff.2 fun herr => ?_
        simp [herr, Scan.bare] at he
      obtain ⟨start, htokens⟩ := tokensFrom_cons fuel here hcs herr
      rw [htokens] at hc
      have hscan := scan_line herr (length_of_isClosed hfits (hc _ List.mem_cons_self)) ds
      rw [bareTokens_cons hcs herr] at he ⊢
      obtain ⟨k', hk'⟩ := ih (k := (scan k c cs').after k) (by omega)
        (fun t ht => hc t (List.mem_cons_of_mem _ ht))
        (fun t ht => he t (List.mem_append_right _ ht))
      refine ⟨k', ?_⟩
      rw [bareTokens_cons hcs' (by rw [hscan]; exact herr), hscan,
        List.dropLast_append_of_ne_nil (bareTokens_proper _ _).ne_nil, List.append_assoc, ← hk']
      rfl

/-- A semicolon, without its place. -/
def separator : Token :=
  { kind := .semicolon, place := {} }

/-- The tokens behind a semicolon on a line of its own. -/
theorem bareTokens_separator (k : Kind) (cs : List Char) :
    bareTokens k ('\n' :: ';' :: '\n' :: cs) = separator :: bareTokens .none cs := by
  rw [bareTokens_blank rfl]
  refine (bareTokens_cons rfl rfl).trans ?_
  refine congrArg (separator :: ·) ?_
  rw [show (scan k ';' ('\n' :: cs)).rest = '\n' :: cs from rfl, bareTokens_blank rfl]
  exact bareTokens_congr rfl

end Steppable.Token
