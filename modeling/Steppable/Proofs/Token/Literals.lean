import Steppable.Proofs.Numeric.Grammar
import Steppable.Proofs.Token.Places
import Steppable.Proofs.Token.Spelling

/-!
# Literals

A number is scanned by a chain of scanners that go over optional parts and give up at five places.
They cut the text where the grammar does, so they take all of it exactly if it is spelled as a
number (`scan_whole`), one lemma for each scanner. What they hand on for conversion is always a
decimal, which is why the error of a number that cannot be converted does not occur.

**Theorem (`numerals_read`).** A text is read as one number that takes all of it exactly if it is a
numeral, and no text makes the conversion of a number fail.

**Theorem (`quote_read`).** The literal of a text is read as this text, whatever follows it.
-/

namespace Steppable

open Token

variable {k : Kind} {form f : NumberForm} {c : Char} {cs m lit rest : List Char}

/-! ## The first token -/

namespace Token

variable {comments : Bool} {fuel : Nat} {here : Position} {t : Token}

/-- A token stands behind the point where reading began; it is the end of the input or was scanned.
-/
theorem mem_tokensFrom (h : t ∈ tokensFrom comments fuel k here cs) :
    here.offset ≤ t.place.span.start ∧
      (t.kind = .endOfInput ∨ ∃ k' c ds, t.kind = (scan k' c ds).kind) := by
  induction fuel generalizing k here cs with
  | zero =>
    obtain rfl := List.mem_singleton.1 h
    exact ⟨Nat.le_refl _, .inl rfl⟩
  | succ fuel ih =>
    rw [tokensFrom] at h
    have hstart : here.offset ≤ (here.after (cs.takeWhile Text.isBlank)).offset := by
      rw [Position.offset_after]
      exact Nat.le_add_right _ _
    generalize here.after (cs.takeWhile Text.isBlank) = start at h hstart
    cases hcs : cs.dropWhile Text.isBlank with
    | nil =>
      rw [hcs] at h
      obtain rfl := List.mem_singleton.1 h
      exact ⟨hstart, .inl rfl⟩
    | cons c ds =>
      rw [hcs] at h
      dsimp only at h
      have hstop : start.offset ≤ ((scan k c ds).stop start (c :: ds)).offset := by
        rw [Scan.stop, Position.offset_after]
        exact Nat.le_add_right _ _
      have hhead : t = (scan k c ds).token start ((scan k c ds).stop start (c :: ds)) →
          here.offset ≤ t.place.span.start ∧
            (t.kind = .endOfInput ∨ ∃ k' c ds, t.kind = (scan k' c ds).kind) := by
        rintro rfl
        exact ⟨hstart, .inr ⟨k, c, ds, rfl⟩⟩
      have htail : ∀ {k'}, t ∈ tokensFrom comments fuel k' ((scan k c ds).stop start (c :: ds))
          (scan k c ds).rest → _ := fun ht =>
        (ih ht).imp (fun hle => Nat.le_trans hstart (Nat.le_trans hstop hle)) id
      split at h
      · exact hhead (List.mem_singleton.1 h)
      · split at h
        · split at h
          · exact (List.mem_cons.1 h).elim hhead htail
          · exact htail h
        · exact (List.mem_cons.1 h).elim hhead htail

end Token

theorem Cursor.ofSource_of_lex {source : String} {comments : Bool} {t : Token} {ts : List Token}
    (h : lex source comments = t :: ts) :
    (ofSource source comments).current = t ∧ (ofSource source comments).ahead = ts := by
  unfold ofSource start
  rw [h]
  exact ⟨rfl, rfl⟩

/-- A token that is scanned at the start of a text is the first one. -/
theorem Token.lex_of_scan {source : String} (hsource : source.toList = c :: cs)
    (hb : Text.isBlank c = false) {s : Scan} (hs : scan .none c cs = s)
    (he : s.kind.isError = false) (hc : s.kind.isComment = false) (comments : Bool) :
    lex source comments = s.token {} (s.stop {} (c :: cs)) ::
      tokensFrom comments (cs.length + 1) s.kind (s.stop {} (c :: cs)) s.rest := by
  unfold lex
  dsimp only
  rw [hsource, List.length_cons, tokensFrom]
  simp [hb, hs, he, hc, Position.after]

/-- Such a token takes the characters up to those that are left. -/
theorem Token.span_of_scan {s : Scan} {taken : List Char} (h : taken ++ s.rest = cs) :
    (s.token {} (s.stop {} (c :: cs))).place.span = ⟨0, taken.length + 1⟩ := by
  rw [Scan.stop_eq h, Scan.token, Position.upTo, Position.offset_after]
  simp

/-! ## Quoted texts -/

/-- **A quoted text is read back**, and its token ends with the closing quote. -/
theorem Cursor.quote_read (s following : String) (comments : Bool) :
    (ofSource (Text.quote s ++ following) comments).current.kind = .string ∧
      (ofSource (Text.quote s ++ following) comments).current.text = s ∧
      (ofSource (Text.quote s ++ following) comments).current.place.span =
        ⟨0, (Text.quote s).length⟩ := by
  have hsource : (Text.quote s ++ following).toList =
      '\x22' :: (s.toList.flatMap Text.escape ++ '\x22' :: following.toList) := by
    simp [Text.quote, Text.quoteChars]
  have hscan : scan .none '\x22' (s.toList.flatMap Text.escape ++ '\x22' :: following.toList) =
      { kind := .string, text := s.toList, rest := following.toList } :=
    scanString_quote s.toList [] following.toList
  have hcurrent := (ofSource_of_lex (lex_of_scan hsource rfl hscan rfl rfl comments)).1
  rw [hcurrent]
  refine ⟨rfl, String.ofList_toList, ?_⟩
  have hlen : (Text.quote s).length = (s.toList.flatMap Text.escape ++ ['\x22']).length + 1 := by
    simp [Text.quote, Text.quoteChars, ← String.length_toList]
  rw [hlen]
  exact span_of_scan (by simp)

/-! ## Scanning -/

namespace Token

/-- The scan takes the whole text as a number of the given form. -/
def Scan.Whole (s : Scan) (f : NumberForm) : Prop :=
  s.kind = .number f ∧ s.rest = []

/-- A decimal is converted, so only a name right after it makes it fail. -/
theorem finishNumber_of_decimal (h : IsDecimal lit) (form : NumberForm) (rest : List Char) :
    ∃ x, finishNumber form lit rest =
      if nextIs isNamePart rest then { kind := .error .identifierAfterNumber, rest }
      else { kind := .number form, number := x, rest } := by
  obtain ⟨x, hx⟩ := Option.isSome_iff_exists.1 (readUnsigned_isSome_iff.2 h)
  refine ⟨x, ?_⟩
  rw [finishNumber, hx]

theorem finishNumber_whole (h : IsDecimal lit) :
    (finishNumber form lit rest).Whole f ↔ rest = [] ∧ f = form := by
  obtain ⟨x, hx⟩ := finishNumber_of_decimal h form rest
  rw [hx]
  cases rest with
  | nil => simp [Scan.Whole, nextIs, eq_comm]
  | cons c cs => split <;> simp [Scan.Whole]

theorem finishNumber_converted (h : IsDecimal lit) :
    (finishNumber form lit rest).kind ≠ .error .numberValue := by
  obtain ⟨x, hx⟩ := finishNumber_of_decimal h form rest
  rw [hx]
  split <;> simp

/-- What the scanner takes with an exponent is a decimal. -/
theorem isDecimal_scanned (hm : Mantissa m) (hc : (c == 'e' || c == 'E') = true)
    (hd : nextIs Char.isDigit (splitSign cs).2 = true) :
    IsDecimal (m ++ c :: (splitSign cs).1 ++ (splitSign cs).2.takeWhile Char.isDigit) := by
  refine ⟨m, c :: ((splitSign cs).1 ++ (splitSign cs).2.takeWhile Char.isDigit), by simp, hm, ?_⟩
  refine .some (by simpa using hc) ?_ ?_ fun d hd => List.mem_takeWhile_imp hd
  · unfold splitSign
    split <;> simp
  · cases hs : (splitSign cs).2 with
    | nil => simp [hs, nextIs] at hd
    | cons d ds =>
      rw [hs] at hd
      have hd : d.isDigit = true := hd
      simp [hd]

theorem scanExponent_whole (hm : Mantissa m) : (scanExponent form m rest).Whole f ↔
    Exponent rest ∧ f = if rest = [] then form else .float := by
  cases rest with
  | nil => simp [scanExponent, finishNumber_whole hm.isDecimal, Exponent.none]
  | cons c cs =>
    rw [scanExponent_cons, exponent_cons_iff, if_neg (List.cons_ne_nil c cs)]
    cases hs : (splitSign cs).2 with
    | nil =>
      split
      · simp [Scan.Whole, nextIs]
      · simp [finishNumber_whole hm.isDecimal]
    | cons d ds =>
      split
      · rename_i hc
        split
        · rename_i hd
          have hlit := isDecimal_scanned hm hc (by rwa [hs])
          rw [hs] at hlit
          rw [finishNumber_whole hlit, List.dropWhile_eq_nil_iff]
          simp_all
        · rename_i hd
          have hd : d.isDigit ≠ true := hd
          simp [Scan.Whole, hd]
      · rename_i hc
        simp_all [finishNumber_whole hm.isDecimal]

theorem scanExponent_converted (hm : Mantissa m) :
    (scanExponent form m rest).kind ≠ .error .numberValue := by
  cases rest with
  | nil => exact finishNumber_converted hm.isDecimal
  | cons c cs =>
    rw [scanExponent_cons]
    split
    · split
      · exact finishNumber_converted (isDecimal_scanned hm ‹_› ‹_›)
      · simp
    · exact finishNumber_converted hm.isDecimal

theorem scanAfterPoint_whole (hm : Mantissa m) : (scanAfterPoint form m rest).Whole f ↔
    Exponent rest ∧ f = if rest = [] then form else .float := by
  unfold scanAfterPoint
  split
  · rename_i hp
    have hne : ¬Exponent rest := fun he => by simp [he.stops.2] at hp
    simp [Scan.Whole, hne]
  · exact scanExponent_whole hm

theorem scanAfterPoint_converted (hm : Mantissa m) :
    (scanAfterPoint form m rest).kind ≠ .error .numberValue := by
  unfold scanAfterPoint
  split
  · simp
  · exact scanExponent_converted hm

/-- The scanner of decimals cuts off the longest mantissa. -/
theorem scanDecimal_eq (h : startsNumber c cs = true) : scanDecimal c cs =
    scanAfterPoint (decimalForm (splitMantissa (c :: cs)).1) (splitMantissa (c :: cs)).1
      (splitMantissa (c :: cs)).2 := by
  have hall : (cs.takeWhile Char.isDigit).all Char.isDigit = true := List.all_takeWhile
  unfold scanDecimal
  by_cases hp : c = '.'
  · subst hp
    rw [splitMantissa_point]
    simp [decimalForm]
  · have hpoint : (c == '.') = false := by simp [hp]
    have hc : c.isDigit = true := by simpa [startsNumber, hp] using h
    have hdrop : (c :: cs).dropWhile Char.isDigit = cs.dropWhile Char.isDigit := by simp [hc]
    have htake : (c :: cs).takeWhile Char.isDigit = c :: cs.takeWhile Char.isDigit := by simp [hc]
    rcases point_or_not (cs.dropWhile Char.isDigit) with ⟨rest, hr⟩ | hr
    · rw [splitMantissa_of_point (hdrop.trans hr), htake, hpoint, hr]
      simp [decimalForm]
    · rw [splitMantissa_of_no_point (by rwa [hdrop]), hdrop, htake, hpoint]
      generalize cs.dropWhile Char.isDigit = tail at hr
      have hnot : ∀ rest, tail ≠ '.' :: rest := by
        rintro rest rfl
        cases hr
      split <;> simp_all [decimalForm]

theorem scanDecimal_whole (h : startsNumber c cs = true) :
    (scanDecimal c cs).Whole f ↔ IsDecimal (c :: cs) ∧ f = decimalForm (c :: cs) := by
  have hm := mantissa_of_startsNumber h
  rw [scanDecimal_eq h, scanAfterPoint_whole hm, isDecimal_iff, and_iff_right hm]
  refine and_congr_right fun he => ?_
  rw [← decimalForm_append he, splitMantissa_append]

theorem scanHex_whole : (scanHex cs).Whole f ↔ f = .hex ∧ cs ≠ [] ∧ ∀ d ∈ cs, IsHexDigit d := by
  have hall : (∀ d ∈ cs, IsHexDigit d) ↔ cs.dropWhile (fun c => (Numeric.hexValue? c).isSome) = [] := by
    simp only [List.dropWhile_eq_nil_iff, hexValue?_isSome_iff]
  have happend := List.takeWhile_append_dropWhile (p := fun c => (Numeric.hexValue? c).isSome) (l := cs)
  rw [hall]
  unfold scanHex
  generalize cs.takeWhile (fun c => (Numeric.hexValue? c).isSome) = digits at happend ⊢
  generalize cs.dropWhile (fun c => (Numeric.hexValue? c).isSome) = tail at happend ⊢
  subst happend
  cases digits with
  | nil => simp +contextual [Scan.Whole]
  | cons d ds =>
    cases tail with
    | nil => simp [Scan.Whole, nextIs, eq_comm]
    | cons c cs =>
      rw [if_neg (by simp)]
      split <;> simp [Scan.Whole]

theorem scanNumber_whole (h : startsNumber c cs = true) :
    (scanNumber c cs).Whole f ↔ Spells f (c :: cs) := by
  rw [spells_iff_of_startsNumber h]
  unfold scanNumber
  split
  · rename_i hc
    rw [beq_iff_eq.1 hc, scanHex_whole, isHexadecimal_iff (.inl rfl)]
    simp [not_isDecimal_of_x]
  · rename_i hc
    rw [beq_iff_eq.1 hc, scanHex_whole, isHexadecimal_iff (.inr rfl)]
    simp [not_isDecimal_of_x]
  · rename_i cs _ _ hx hX
    have hhex : ¬IsHexadecimal (c :: cs) := by
      rintro ⟨x, ds, rfl | rfl, heq, -⟩
      · simp_all
      · simp_all
    rw [scanDecimal_whole h]
    simp [hhex]

theorem kindOfName_number : kindOfName cs = .number f ↔
    (f = .nan ∧ cs = "NaN".toList) ∨ (f = .infinity ∧ cs = "Infinity".toList) := by
  unfold kindOfName
  grind

theorem not_startsNumber_of_isNameStart (h : isNameStart c = true) : startsNumber c cs = false := by
  have hp : c ≠ '.' := by
    rintro rfl
    cases h
  simp [startsNumber, isDigit_of_isNameStart h, hp]

theorem scanName_whole (h : isNameStart c = true) :
    (scanName (c :: cs)).Whole f ↔ Spells f (c :: cs) := by
  have hspells : Spells f (c :: cs) ↔
      (f = .nan ∧ c :: cs = "NaN".toList) ∨ (f = .infinity ∧ c :: cs = "Infinity".toList) := by
    refine ⟨fun hs => (start_of_spells hs).resolve_left ?_, ?_⟩
    · simp [not_startsNumber_of_isNameStart h]
    · rintro (⟨rfl, hw⟩ | ⟨rfl, hw⟩) <;> exact hw
  rw [hspells]
  unfold scanName Scan.Whole
  rw [← kindOfName_number, List.dropWhile_eq_nil_iff]
  constructor
  · rintro ⟨hk, hall⟩
    rwa [List.takeWhile_eq_self_iff.2 hall] at hk
  · intro hk
    have hall : ∀ d ∈ c :: cs, isNamePart d = true := by
      rcases kindOfName_number.1 hk with ⟨-, hw⟩ | ⟨-, hw⟩
      · exact hw ▸ List.all_eq_true.1 rfl
      · exact hw ▸ List.all_eq_true.1 rfl
    rw [List.takeWhile_eq_self_iff.2 hall]
    exact ⟨hk, hall⟩

theorem scan_of_startsNumber (h : startsNumber c cs = true) : scan k c cs = scanNumber c cs := by
  rcases Bool.or_eq_true_iff.1 h with hd | hp
  · exact scan_of_isDigit hd
  · obtain ⟨hp, hd⟩ := Bool.and_eq_true_iff.1 hp
    obtain rfl := eq_of_beq hp
    exact if_pos hd

/-- **What is scanned as one number** are the numerals. -/
theorem scan_whole : (scan k c cs).Whole f ↔ Spells f (c :: cs) := by
  by_cases hs : startsNumber c cs = true
  · rw [scan_of_startsNumber hs, scanNumber_whole hs]
  · by_cases hn : isNameStart c = true
    · rw [scan_of_isNameStart hn, scanName_whole hn]
    · -- Nothing else begins a number.
      refine iff_of_false ?_ fun h => ?_
      · rintro ⟨hk, -⟩
        have hnumber : (scan k c cs).kind.isNumber = true := by
          rw [hk]
          rfl
        have := start_of_isNumber hnumber
        simp_all [startsNumber]
      · rcases start_of_spells h with h | ⟨-, h⟩ | ⟨-, h⟩
        · exact hs h
        · exact hn (by rw [(List.cons.inj h).1]; rfl)
        · exact hn (by rw [(List.cons.inj h).1]; rfl)

/-! ## Errors -/

theorem scanNumber_converted (h : startsNumber c cs = true) :
    (scanNumber c cs).kind ≠ .error .numberValue := by
  have hhex : ∀ cs, (scanHex cs).kind ≠ .error .numberValue := fun cs => by
    unfold scanHex
    dsimp only
    split
    · simp
    · split <;> simp
  unfold scanNumber
  split
  · exact hhex _
  · exact hhex _
  · rw [scanDecimal_eq h]
    exact scanAfterPoint_converted (mantissa_of_startsNumber h)

theorem arithOrCompound_converted (op : Arith) (cs : List Char) :
    (arithOrCompound op cs).kind ≠ .error .numberValue := by
  fun_cases arithOrCompound op cs <;> simp

theorem scanComparison_converted (c : Char) (cs : List Char) :
    (scanComparison c cs).kind ≠ .error .numberValue := by
  fun_cases scanComparison c cs <;> first | exact arithOrCompound_converted _ _ | simp

theorem scanRegex_converted (escaped : Bool) (read cs : List Char) :
    (scanRegex escaped read cs).kind ≠ .error .numberValue := by
  fun_induction scanRegex escaped read cs <;> simp_all

theorem scanString_converted (quote : Char) (state : StringState) (read cs : List Char)
    (h : ∀ left value, state ≠ .hex left value .numberValue) :
    (scanString quote state read cs).kind ≠ .error .numberValue := by
  fun_induction scanString quote state read cs <;> simp_all

/-- No scan ends with a number that cannot be converted. -/
theorem scan_converted (k : Kind) (c : Char) (cs : List Char) :
    (scan k c cs).kind ≠ .error .numberValue := by
  unfold scan
  split
  case h_12 =>
    split
    · exact scanNumber_converted (by simp_all [startsNumber])
    · simp
  case h_13 | h_14 | h_15 | h_16 => exact scanComparison_converted _ _
  case h_17 | h_18 | h_22 | h_23 =>
    unfold scanDoubled
    split
    · split
      · simp
      · exact arithOrCompound_converted _ _
    · exact arithOrCompound_converted _ _
  case h_19 | h_20 | h_21 => exact arithOrCompound_converted _ _
  case h_24 =>
    unfold scanSlash
    split
    · simp [scanLineComment]
    · simp [scanStarComment_kind]
    · split
      · exact arithOrCompound_converted _ _
      · exact scanRegex_converted _ _ _
  case h_25 | h_26 => exact scanString_converted _ _ _ _ (by simp)
  case h_27 =>
    split
    · exact scanNumber_converted (by simp_all [startsNumber])
    · split
      · simp only [scanName]
        have := kindOfName_plain ((c :: cs).takeWhile isNamePart)
        intro hk
        simp [hk, Kind.isError] at this
      · simp
  all_goals simp

theorem lex_converted (source : String) (comments : Bool) :
    Kind.error .numberValue ∉ (lex source comments).map Token.kind := by
  intro h
  obtain ⟨t, ht, hk⟩ := List.mem_map.1 h
  rcases (mem_tokensFrom ht).2 with hend | ⟨k, c, cs, hscan⟩
  · simp [hk] at hend
  · exact scan_converted k c cs (hscan.symm.trans hk)

end Token

/-! ## The whole text -/

namespace Cursor

/-- The text is read as one number that takes all of it, and then it ends. -/
structure ReadsWhole (w : String) (form : NumberForm) : Prop where
  kind : (ofSource w).current.kind = .number form
  span : (ofSource w).current.place.span = ⟨0, w.length⟩
  ends : (ofSource w).forward.current.kind = .endOfInput

theorem not_isBlank_of_spells (h : Spells f (c :: cs)) : Text.isBlank c = false := by
  rcases start_of_spells h with h | ⟨-, h⟩ | ⟨-, h⟩
  · rcases Bool.or_eq_true_iff.1 h with hd | hp
    · exact isBlank_of_isNamePart (by simp [isNamePart, hd])
    · rw [eq_of_beq (Bool.and_eq_true_iff.1 hp).1]
      rfl
  · rw [(List.cons.inj h).1]
    rfl
  · rw [(List.cons.inj h).1]
    rfl

theorem readsWhole_of_spells {w : String} (h : Spells form w.toList) : ReadsWhole w form := by
  cases hw : w.toList with
  | nil =>
    rw [hw] at h
    exact absurd h not_spells_nil
  | cons c cs =>
    rw [hw] at h
    obtain ⟨hkind, hrest⟩ := (scan_whole (k := .none)).2 h
    have hlex := lex_of_scan hw (not_isBlank_of_spells h) rfl (by rw [hkind]; rfl)
      (by rw [hkind]; rfl) false
    rw [hrest, tokensFrom] at hlex
    obtain ⟨hcurrent, hahead⟩ := ofSource_of_lex hlex
    refine ⟨?_, ?_, ?_⟩
    · rw [hcurrent]
      exact hkind
    · rw [hcurrent, span_of_scan (by rw [hrest, List.append_nil]), ← String.length_toList, hw,
        List.length_cons]
    · have hl : (ofSource w).atLast = false := by
        rw [atLast, hcurrent]
        show ((scan .none c cs).kind).isLast = false
        rw [hkind]
        rfl
      rw [forward, hl, hahead]
      rfl

/-- A number that is the first token and begins with the text was scanned there. Blanks or comments
before it would move it. -/
theorem scan_of_lex {w : String} {t : Token} {ts : List Token} (h : lex w = t :: ts)
    (hk : t.kind = .number form) (hstart : t.place.span.start = 0) :
    ∃ c cs taken, w.toList = c :: cs ∧ taken ++ (scan .none c cs).rest = cs ∧
      t = (scan .none c cs).token {} ((scan .none c cs).stop {} (c :: cs)) := by
  unfold lex at h
  dsimp only at h
  rw [tokensFrom] at h
  cases hcs : w.toList.dropWhile Text.isBlank with
  | nil =>
    rw [hcs] at h
    obtain ⟨rfl, -⟩ := List.cons.inj h
    cases hk
  | cons c cs =>
    rw [hcs] at h
    dsimp only at h
    obtain ⟨taken, htaken⟩ := (scan_fits (k := .none) c cs).1
    split at h
    · rename_i he
      obtain ⟨rfl, -⟩ := List.cons.inj h
      rw [show (scan .none c cs).kind = .number form from hk] at he
      cases he
    · split at h
      · -- after a comment the text goes on behind its start
        have hmem : t ∈ _ := h ▸ List.mem_cons_self
        have := (mem_tokensFrom hmem).1
        rw [Scan.stop_eq htaken, Position.offset_after, List.length_cons] at this
        omega
      · obtain ⟨rfl, -⟩ := List.cons.inj h
        have hblank : w.toList.takeWhile Text.isBlank = [] := by
          rw [← List.length_eq_zero_iff, ← hstart, Scan.token, Position.upTo, Position.offset_after]
          simp
        have hw := List.takeWhile_append_dropWhile (p := Text.isBlank) (l := w.toList)
        rw [hblank, hcs] at hw
        refine ⟨c, cs, taken, hw.symm, htaken, ?_⟩
        rw [hblank]
        rfl

theorem spells_of_readsWhole {w : String} (h : ReadsWhole w form) : Spells form w.toList := by
  obtain ⟨hkind, hspan, -⟩ := h
  cases hlex : lex w with
  | nil =>
    unfold ofSource start at hkind
    rw [hlex] at hkind
    cases hkind
  | cons t ts =>
    rw [(ofSource_of_lex hlex).1] at hkind hspan
    obtain ⟨c, cs, taken, hw, htaken, rfl⟩ := scan_of_lex hlex hkind (by rw [hspan])
    have hlen : taken.length + 1 = w.length := by
      rw [span_of_scan htaken] at hspan
      exact (Span.mk.inj hspan).2
    have hrest : (scan .none c cs).rest = [] := by
      rw [← String.length_toList, hw, List.length_cons] at hlen
      have := congrArg List.length htaken
      rw [List.length_append] at this
      exact List.length_eq_zero_iff.1 (by omega)
    rw [hw]
    exact scan_whole.1 ⟨hkind, hrest⟩

theorem readsWhole_iff {w : String} : ReadsWhole w form ↔ Spells form w.toList :=
  ⟨spells_of_readsWhole, readsWhole_of_spells⟩

/-- **The numerals are what is read as one number**, and the conversion of a number never fails. -/
theorem numerals_read :
    (∀ w : String, (∃ form, ReadsWhole w form) ↔ IsNumeral w.toList) ∧
      ∀ (source : String) (comments : Bool),
        Kind.error .numberValue ∉ (lex source comments).map Token.kind := by
  refine ⟨fun w => ?_, lex_converted⟩
  rw [isNumeral_iff]
  exact exists_congr fun form => readsWhole_iff

end Cursor

end Steppable
