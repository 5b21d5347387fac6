import Mathlib.Data.List.TakeWhile
import Steppable.Proofs.Token.Places
import Steppable.Text.Quoted

/-!
# How tokens are spelled

What is written for a token is scanned as that token again, whatever follows: a string literal as its
text (`scanString_quote`), a word or a number in front of a character that ends it, an operator in
front of a blank.
-/

namespace Steppable.Token

variable {k : Kind} {c d : Char} {cs ds rest read : List Char} {t : Token}

/-- The token that a scan finds is the first one of the text. -/
theorem bareTokens_of_scan {s : Scan} (hs : scan k c cs = s)
    (hb : Text.isBlank c = false) (he : s.kind.isError = false)
    (hc : s.kind.isComment = false) :
    bareTokens k (c :: cs) = s.bare :: bareTokens s.kind s.rest := by
  subst hs
  have hcs : (c :: cs).dropWhile Text.isBlank = c :: cs := by simp [hb]
  rw [bareTokens_cons hcs he, Scan.after, hc]
  rfl

/-- A token that its kind determines. -/
def mark (k : Kind) : Token :=
  { kind := k, place := {} }

/-! ## Strings -/

theorem hexValue_hexDigit : ∀ n < 16, Numeric.hexValue? (Text.hexDigit n) = some n := by
  decide

/-- Four hexadecimal digits name the character of that number. -/
theorem scanString_hexDigits (n : Nat) (hn : n < 0x20) (read rest : List Char) :
    scanString '\x22' .plain read ('\\' :: 'u' :: Text.hexDigits4 n ++ rest) =
      scanString '\x22' .plain (Char.ofNat n :: read) rest := by
  have h₁ := hexValue_hexDigit (n / 4096 % 16) (by omega)
  have h₂ := hexValue_hexDigit (n / 256 % 16) (by omega)
  have h₃ := hexValue_hexDigit (n / 16 % 16) (by omega)
  have h₄ := hexValue_hexDigit (n % 16) (by omega)
  have hval : ((n / 4096 % 16 * 16 + n / 256 % 16) * 16 + n / 16 % 16) * 16 + n % 16 = n := by omega
  have hvalid : n.isValidChar := Or.inl (by omega)
  simp [scanString, Text.hexDigits4, h₁, h₂, h₃, h₄, hval, hvalid]

/-- What is written for a character stands for it. -/
theorem scanString_escape (c : Char) (read rest : List Char) :
    scanString '\x22' .plain read (Text.escape c ++ rest) =
      scanString '\x22' .plain (c :: read) rest := by
  unfold Text.escape
  repeat' split
  all_goals try (rename_i h; obtain rfl := eq_of_beq h; rfl)
  · rename_i hc
    rw [List.cons_append, List.cons_append]
    have := scanString_hexDigits c.toNat hc read rest
    rwa [Char.ofNat_toNat] at this
  · simp_all [scanString]

theorem scanString_quote (cs read rest : List Char) :
    scanString '\x22' .plain read (cs.flatMap Text.escape ++ '\x22' :: rest) =
      { kind := .string, text := read.reverse ++ cs, rest } := by
  induction cs generalizing read with
  | nil => simp [scanString]
  | cons c cs ih =>
    rw [List.flatMap_cons, List.append_assoc, scanString_escape, ih]
    simp

/-- A quoted text is scanned as a string. -/
theorem bareTokens_quote (s : String) (rest : List Char) :
    bareTokens k ((Text.quote s).toList ++ rest) =
      { kind := .string, text := s, place := {} } :: bareTokens .string rest := by
  have htext : (Text.quote s).toList ++ rest =
      '\x22' :: (s.toList.flatMap Text.escape ++ '\x22' :: rest) := by
    simp [Text.quote, Text.quoteChars]
  have hscan : scan k '\x22' (s.toList.flatMap Text.escape ++ '\x22' :: rest) =
      { kind := .string, text := s.toList, rest } := scanString_quote s.toList [] rest
  rw [htext, bareTokens_of_scan hscan rfl rfl rfl, Scan.bare, String.ofList_toList]

/-! ## Words -/

theorem isBlank_of_isNamePart (h : isNamePart c = true) : Text.isBlank c = false := by
  rw [isNamePart_iff] at h
  refine Bool.eq_false_iff.2 fun hb => ?_
  simp only [Text.isBlank, Char.le_def, UInt32.le_iff_toNat_le, Bool.or_eq_true, Bool.and_eq_true,
    decide_eq_true_eq, beq_iff_eq, ← Char.toNat_inj, Char.toNat] at hb h
  simp at hb h
  omega

theorem isNamePart_of_isNameStart (h : isNameStart c = true) : isNamePart c = true := by
  simp [isNamePart, h]

theorem isDigit_of_isNameStart (h : isNameStart c = true) : c.isDigit = false := by
  refine Bool.eq_false_iff.2 fun hb => ?_
  rw [isNameStart_iff] at h
  rw [isDigit_iff] at hb
  omega

theorem scan_of_isNameStart (h : isNameStart c = true) : scan k c cs = scanName (c :: cs) := by
  unfold scan
  split
  case h_27 => simp [isDigit_of_isNameStart h, h]
  all_goals simp [isNameStart] at h

theorem scan_of_isDigit (h : c.isDigit = true) : scan k c cs = scanNumber c cs := by
  unfold scan
  split
  case h_27 => simp [h]
  all_goals simp at h

/-- Whether the text is a word. -/
def isWordText : List Char → Bool
  | [] => false
  | c :: cs => isNameStart c && cs.all isNamePart

/-- Whether the text after a word ends it. -/
def endsWord (rest : List Char) : Bool :=
  !nextIs isNamePart rest

/-- Whether the text after a number ends it. -/
def endsNumber : List Char → Bool
  | [] => true
  | d :: _ => isDelimiter d

theorem endsWord_of_endsNumber (h : endsNumber rest = true) : endsWord rest = true := by
  cases rest with
  | nil => rfl
  | cons d ds => simpa [endsWord, nextIs] using delimiter_namePart h

theorem isNamePart_of_isWordText (h : isWordText cs = true) : ∀ c ∈ cs, isNamePart c = true := by
  cases cs with
  | nil => simp
  | cons c cs =>
    simp only [isWordText, Bool.and_eq_true, List.all_eq_true] at h
    simpa [isNamePart_of_isNameStart h.1] using h.2

/-- The token of a word. -/
def word (cs : List Char) : Token :=
  (scanName cs).bare

theorem text_word (h : isWordText cs = true) : (word cs).text = String.ofList cs := by
  show String.ofList (cs.takeWhile isNamePart) = _
  rw [List.takeWhile_eq_self_iff.2 (isNamePart_of_isWordText h)]

theorem kind_word (h : isWordText cs = true) : (word cs).kind = kindOfName cs := by
  show kindOfName (cs.takeWhile isNamePart) = _
  rw [List.takeWhile_eq_self_iff.2 (isNamePart_of_isWordText h)]

theorem scanName_append (h : ∀ c ∈ cs, isNamePart c = true) (hr : endsWord rest = true) :
    scanName (cs ++ rest) = { scanName cs with rest } := by
  have ht : rest.takeWhile isNamePart = [] ∧ rest.dropWhile isNamePart = rest := by
    cases rest with
    | nil => exact ⟨rfl, rfl⟩
    | cons d ds =>
      have hd : isNamePart d = false := by simpa [endsWord, nextIs] using hr
      simp [hd]
  unfold scanName
  rw [List.takeWhile_append_of_pos h, List.dropWhile_append_of_pos h, ht.1, ht.2,
    List.takeWhile_eq_self_iff.2 h, List.append_nil]

theorem kindOfName_plain (name : List Char) :
    (kindOfName name).isError = false ∧ (kindOfName name).isComment = false := by
  grind [kindOfName, Kind.isError, Kind.isComment, Kind.class?]

/-- A word is scanned as a whole. -/
theorem bareTokens_word (h : isWordText cs = true) (hr : endsWord rest = true) :
    bareTokens k (cs ++ rest) = word cs :: bareTokens (word cs).kind rest := by
  have hscan := scanName_append (isNamePart_of_isWordText h) hr
  cases cs with
  | nil => cases h
  | cons c cs =>
    simp only [isWordText, Bool.and_eq_true] at h
    have hk := kindOfName_plain ((c :: cs).takeWhile isNamePart)
    exact bareTokens_of_scan ((scan_of_isNameStart h.1).trans hscan)
      (isBlank_of_isNamePart (isNamePart_of_isNameStart h.1)) hk.1 hk.2

/-- A word that is a name, in front of a blank. -/
theorem bareTokens_keyword (h : isWordText cs = true) (hk : kindOfName cs = .identifier)
    (rest : List Char) :
    bareTokens k (cs ++ ' ' :: rest) = word cs :: bareTokens .identifier rest := by
  rw [bareTokens_word h rfl, bareTokens_blank rfl, kind_word h, hk]

/-- A name has the text that was taken for it, so what is spelled by any text is no name. -/
theorem Scan.kind_ne_identifier {s : Scan} (h : ∀ ds, s.Spelled ds) : s.kind ≠ .identifier := by
  intro hk
  have h₁ := h [] (.inl hk)
  have h₂ := h [' '] (.inl hk)
  rw [h₁] at h₂
  cases h₂

theorem scanRegex_ne_identifier (escaped : Bool) (read cs : List Char) :
    (scanRegex escaped read cs).kind ≠ .identifier := by
  fun_induction scanRegex escaped read cs <;> simp_all

theorem scanSlash_ne_identifier (k : Kind) (cs : List Char) : (scanSlash k cs).kind ≠ .identifier := by
  unfold scanSlash
  split
  · simp [scanLineComment]
  · simp [scanStarComment_kind]
  · split
    · exact Scan.kind_ne_identifier fun _ => arithOrCompound_spelled _ _
    · exact scanRegex_ne_identifier _ _ _

/-- A name begins with a letter or what counts as one. -/
theorem start_of_identifier (h : (scan k c cs).kind = .identifier) : isNameStart c = true := by
  unfold scan at h
  split at h
  case h_12 =>
    split at h
    · exact (Scan.kind_ne_identifier (fun _ => scanNumber_spelled _ _) h).elim
    · cases h
  case h_13 | h_14 | h_15 | h_16 =>
    exact (Scan.kind_ne_identifier (fun _ => scanComparison_spelled _ _) h).elim
  case h_17 | h_18 | h_22 | h_23 =>
    exact (Scan.kind_ne_identifier (fun _ => scanDoubled_spelled (by simp) _ _) h).elim
  case h_19 | h_20 | h_21 =>
    exact (Scan.kind_ne_identifier (fun _ => arithOrCompound_spelled _ _) h).elim
  case h_24 => exact (scanSlash_ne_identifier _ _ h).elim
  case h_25 | h_26 => exact (Scan.kind_ne_identifier (fun _ => scanString_spelled _ _ _ _) h).elim
  case h_27 =>
    split at h
    · exact (Scan.kind_ne_identifier (fun _ => scanNumber_spelled _ _) h).elim
    · split at h
      · assumption
      · cases h
  all_goals cases h

/-- A token of a text ends it or was scanned. -/
theorem mem_bareTokens (h : t ∈ bareTokens k cs) :
    t = ending ∨ ∃ k' c ds, t = (scan k' c ds).bare := by
  induction hn : cs.length using Nat.strongRecOn generalizing k cs with
  | ind n ih =>
    have hd := length_dropWhile_le Text.isBlank cs
    rw [bareTokens_eq] at h
    cases hcs : cs.dropWhile Text.isBlank with
    | nil =>
      rw [hcs] at h
      exact .inl (List.mem_singleton.1 h)
    | cons c ds =>
      have hr := (scan_fits k c ds).1.length_le
      rw [hcs] at h hd
      rw [List.length_cons] at hd
      dsimp only at h
      split at h
      · exact .inr ⟨k, c, ds, List.mem_singleton.1 h⟩
      · split at h
        · exact ih _ (by omega) h rfl
        · rcases List.mem_cons.1 h with rfl | h
          · exact .inr ⟨k, c, ds, rfl⟩
          · exact ih _ (by omega) h rfl

/-- The text of a name is a word, and it is scanned as a name. -/
theorem word_of_identifier (h : t ∈ bareTokens k cs) (ht : t.kind = .identifier) :
    isWordText t.text.toList = true ∧ kindOfName t.text.toList = .identifier := by
  rcases mem_bareTokens h with rfl | ⟨k', c, ds, rfl⟩
  · cases ht
  · have hk : (scan k' c ds).kind = .identifier := ht
    have hc := start_of_identifier hk
    rw [scan_of_isNameStart hc] at ht ⊢
    have htext : (scanName (c :: ds)).bare.text.toList = (c :: ds).takeWhile isNamePart :=
      String.toList_ofList
    rw [htext]
    refine ⟨?_, ht⟩
    rw [List.takeWhile_cons, if_pos (isNamePart_of_isNameStart hc)]
    simp [isWordText, hc, List.all_takeWhile]

/-! ## Numbers -/

theorem scanString_isNumber (quote : Char) (state : StringState) (read cs : List Char) :
    (scanString quote state read cs).kind.isNumber = false := by
  fun_induction scanString quote state read cs <;> first | assumption | rfl

theorem scanRegex_isNumber (escaped : Bool) (read cs : List Char) :
    (scanRegex escaped read cs).kind.isNumber = false := by
  fun_induction scanRegex escaped read cs <;> first | assumption | rfl

theorem arithOrCompound_isNumber (op : Arith) (cs : List Char) :
    (arithOrCompound op cs).kind.isNumber = false := by
  unfold arithOrCompound
  split <;> rfl

theorem scanDoubled_isNumber {twice : Kind} (ht : twice.isNumber = false) (op : Arith) (c : Char)
    (cs : List Char) : (scanDoubled c twice op cs).kind.isNumber = false := by
  unfold scanDoubled
  split
  · split
    · exact ht
    · exact arithOrCompound_isNumber ..
  · exact arithOrCompound_isNumber ..

theorem scanComparison_isNumber (c : Char) (cs : List Char) :
    (scanComparison c cs).kind.isNumber = false := by
  unfold scanComparison
  split <;> first | rfl | exact arithOrCompound_isNumber ..

theorem scanSlash_isNumber (k : Kind) (cs : List Char) : (scanSlash k cs).kind.isNumber = false := by
  unfold scanSlash
  split
  · rfl
  · rw [scanStarComment_kind]
    rfl
  · split
    · exact arithOrCompound_isNumber ..
    · exact scanRegex_isNumber ..

/-- A number begins with a digit, with a point before a digit, or with a letter. -/
theorem start_of_isNumber (h : (scan k c cs).kind.isNumber = true) :
    (c = '.' ∧ nextIs Char.isDigit cs = true) ∨ c.isDigit = true ∨ isNameStart c = true := by
  unfold scan at h
  split at h
  case h_27 =>
    split at h
    · exact .inr (.inl ‹_›)
    · split at h
      · exact .inr (.inr ‹_›)
      · cases h
  case h_12 =>
    split at h
    · exact .inl ⟨rfl, ‹_›⟩
    · cases h
  all_goals
    refine absurd h (Bool.eq_false_iff.1 ?_)
    first
    | rfl
    | exact scanComparison_isNumber ..
    | exact scanDoubled_isNumber rfl ..
    | exact arithOrCompound_isNumber ..
    | exact scanSlash_isNumber ..
    | exact scanString_isNumber ..
theorem scanNumber_before {first : Char} (hr : endsNumber rest = true) :
    scanNumber first (cs ++ rest) = (scanNumber first cs).before rest := by
  cases rest with
  | nil => simp [Scan.before]
  | cons d ds => rw [scanNumber_stop hr]

/-- Whether the text is scanned, as a whole, as the number `x`. -/
def spellsNumber (x : Float) : List Char → Bool
  | [] => false
  | c :: cs =>
    let s := scan .none c cs
    s.kind.isNumber && s.number = x && s.rest.isEmpty

theorem scan_number {x : Float} (h : spellsNumber x (c :: cs) = true) (hr : endsNumber rest = true) :
    scan k c (cs ++ rest) = { scan .none c cs with rest } := by
  simp only [spellsNumber, Bool.and_eq_true, List.isEmpty_iff] at h
  obtain ⟨⟨hk, -⟩, hrest⟩ := h
  -- How the text begins decides for one scanner, whatever stands before and behind it.
  have hbefore : scan k c (cs ++ rest) = (scan .none c cs).before rest := by
    rcases start_of_isNumber hk with ⟨rfl, hd⟩ | hc | hc
    · have hd' : nextIs Char.isDigit (cs ++ rest) = true := by
        cases cs with
        | nil => cases hd
        | cons => exact hd
      rw [show scan .none '.' cs = scanNumber '.' cs from if_pos hd,
        show scan k '.' (cs ++ rest) = scanNumber '.' (cs ++ rest) from if_pos hd']
      exact scanNumber_before hr
    · rw [scan_of_isDigit hc, scan_of_isDigit hc]
      exact scanNumber_before hr
    · rw [scan_of_isNameStart hc, scan_of_isNameStart hc]
      cases rest with
      | nil => simp [Scan.before]
      | cons d ds => rw [← List.cons_append, scanName_stop (delimiter_namePart hr)]
  rw [hbefore, Scan.before, hrest]
  rfl

theorem kind_of_isNumber (h : k.isNumber = true) : ∃ form, k = .number form := by
  unfold Kind.isNumber Kind.class? at h
  split at h <;> simp_all

/-- A number is scanned as a whole. -/
theorem bareTokens_number {x : Float} (h : spellsNumber x cs = true) (hr : endsNumber rest = true) :
    ∃ (t : Token) (form : NumberForm), t.kind = .number form ∧ t.number = x ∧
      bareTokens k (cs ++ rest) = t :: bareTokens t.kind rest := by
  cases cs with
  | nil => cases h
  | cons c cs =>
    have hscan := scan_number (k := k) h hr
    simp only [spellsNumber, Bool.and_eq_true, decide_eq_true_eq] at h
    obtain ⟨⟨hk, hx⟩, -⟩ := h
    have hblank : Text.isBlank c = false := by
      rcases start_of_isNumber hk with ⟨rfl, -⟩ | hc | hc
      · rfl
      · exact isBlank_of_isNamePart (by simp [isNamePart, hc])
      · exact isBlank_of_isNamePart (isNamePart_of_isNameStart hc)
    obtain ⟨form, hform⟩ := kind_of_isNumber hk
    exact ⟨(scan .none c cs).bare, form, hform, hx, bareTokens_of_scan hscan hblank
      (by rw [hform]; rfl) (by rw [hform]; rfl)⟩

/-! ## Operators -/

/-- A binary operator is set off by a blank. -/
theorem bareTokens_binary (op : BinaryOp) (hk : endsOperand k = true) (rest : List Char) :
    ∃ t : Token, t.kind = .binary op ∧
      bareTokens k (op.symbol.toList ++ ' ' :: rest) = t :: bareTokens (.binary op) rest := by
  have hdiv : scan k '/' (' ' :: rest) = { kind := .binary (.arith .divide), rest := ' ' :: rest } := by
    show scanSlash k (' ' :: rest) = _
    simp [scanSlash, hk, arithOrCompound]
  cases op with
  | arith op =>
    cases op
    case divide => exact ⟨_, rfl, (bareTokens_of_scan hdiv rfl rfl rfl).trans (by rw [bareTokens_blank rfl])⟩
    all_goals exact ⟨_, rfl, (bareTokens_of_scan rfl rfl rfl rfl).trans (congrArg _ (bareTokens_blank rfl))⟩
  | comparison op =>
    cases op
    all_goals exact ⟨_, rfl, (bareTokens_of_scan rfl rfl rfl rfl).trans (congrArg _ (bareTokens_blank rfl))⟩
  | connective op =>
    cases op
    all_goals exact ⟨_, rfl, (bareTokens_of_scan rfl rfl rfl rfl).trans (congrArg _ (bareTokens_blank rfl))⟩

/-- Whether the character makes a longer operator with a sign or `!` before it. -/
def extendsSign (c : Char) : Bool :=
  c == '-' || c == '+' || c == '='

theorem extendsSign_of_isNamePart {c : Char} (h : isNamePart c = true) : extendsSign c = false := by
  have hne : ∀ d, isNamePart d = false → c ≠ d := by
    rintro d hd rfl
    simp [h] at hd
  simp [extendsSign, hne '-' rfl, hne '+' rfl, hne '=' rfl]

/-- An operator in front of an operand that does not begin like an operator. -/
theorem bareTokens_unary (op : UnaryOp) (hr : nextIs extendsSign rest = false) :
    ∃ t : Token, t.kind.unary? = some op ∧ t.kind.isLast = false ∧
      bareTokens k (op.lead.toList ++ rest) = t :: bareTokens t.kind rest := by
  have hne : ∀ d ds, rest = d :: ds → (d ≠ '-' ∧ d ≠ '+') ∧ d ≠ '=' := by
    rintro d ds rfl
    simpa [nextIs, extendsSign] using hr
  have hword : ∀ cs, isWordText cs = true →
      bareTokens k (cs ++ ' ' :: rest) = word cs :: bareTokens (word cs).kind rest := fun cs h => by
    rw [bareTokens_word h rfl, bareTokens_blank rfl]
  cases op with
  | typeOf => exact ⟨_, rfl, rfl, hword "typeof".toList rfl⟩
  | void => exact ⟨_, rfl, rfl, hword "void".toList rfl⟩
  | delete => exact ⟨_, rfl, rfl, hword "delete".toList rfl⟩
  | new => exact ⟨_, rfl, rfl, hword "new".toList rfl⟩
  | bitNot => exact ⟨_, rfl, rfl, bareTokens_of_scan rfl rfl rfl rfl⟩
  | minus =>
    have hs : scan k '-' rest = { kind := .binary (.arith .minus), rest } := by
      show scanDoubled '-' .decrement .minus rest = _
      cases rest with
      | nil => rfl
      | cons d ds => simp_all [scanDoubled, arithOrCompound]
    exact ⟨_, rfl, rfl, bareTokens_of_scan hs rfl rfl rfl⟩
  | plus =>
    have hs : scan k '+' rest = { kind := .binary (.arith .plus), rest } := by
      show scanDoubled '+' .increment .plus rest = _
      cases rest with
      | nil => rfl
      | cons d ds => simp_all [scanDoubled, arithOrCompound]
    exact ⟨_, rfl, rfl, bareTokens_of_scan hs rfl rfl rfl⟩
  | not =>
    have hs : scan k '!' rest = { kind := .not, rest } := by
      show scanComparison '!' rest = _
      cases rest with
      | nil => rfl
      | cons d ds => simp_all [scanComparison]
    exact ⟨_, rfl, rfl, bareTokens_of_scan hs rfl rfl rfl⟩

end Steppable.Token
