import Mathlib.Data.List.TakeWhile
import Mathlib.Tactic.Tauto
import Steppable.Proofs.Token.Lines

/-!
# The grammar of numbers

What a number looks like is laid down nowhere: the code that reads it goes over optional parts and
gives up where one is missing. Here the grammar is written down (`Mantissa`, `Exponent`,
`IsDecimal`, `IsHexadecimal`, `IsNumeral`).

Every chain of digits and points is cut in one place into the longest mantissa and the rest
(`splitMantissa`), and it is a decimal exactly if the rest is an exponent or nothing
(`isDecimal_iff`). The conversion into a float cuts there as well, so the texts it accepts are the
decimals (`readUnsigned_isSome_iff`).
-/

namespace Steppable

open Token

variable {f : NumberForm} {c d : Char} {cs ds m e rest : List Char}

/-! ## The grammar of numbers -/

/-- Digits with at most one point before, among or behind them. -/
inductive Mantissa : List Char → Prop
  | whole {ds : List Char} : ds ≠ [] → (∀ d ∈ ds, d.isDigit = true) → Mantissa ds
  | pointed {ds es : List Char} : ds ≠ [] → (∀ d ∈ ds, d.isDigit = true) →
      (∀ d ∈ es, d.isDigit = true) → Mantissa (ds ++ '.' :: es)
  | fraction {ds : List Char} : ds ≠ [] → (∀ d ∈ ds, d.isDigit = true) → Mantissa ('.' :: ds)

/-- An exponent or nothing. -/
inductive Exponent : List Char → Prop
  | none : Exponent []
  | some {c : Char} {sign ds : List Char} : c = 'e' ∨ c = 'E' →
      sign = [] ∨ sign = ['+'] ∨ sign = ['-'] → ds ≠ [] → (∀ d ∈ ds, d.isDigit = true) →
      Exponent (c :: (sign ++ ds))

/-- A decimal literal. -/
def IsDecimal (cs : List Char) : Prop :=
  ∃ m e, cs = m ++ e ∧ Mantissa m ∧ Exponent e

/-- The digits of the base sixteen, in either case. -/
def IsHexDigit (d : Char) : Prop :=
  ('0' ≤ d ∧ d ≤ '9') ∨ ('a' ≤ d ∧ d ≤ 'f') ∨ ('A' ≤ d ∧ d ≤ 'F')

instance (d : Char) : Decidable (IsHexDigit d) :=
  inferInstanceAs (Decidable (_ ∨ _ ∨ _))

/-- A hexadecimal literal. -/
def IsHexadecimal (cs : List Char) : Prop :=
  ∃ x ds, (x = 'x' ∨ x = 'X') ∧ cs = '0' :: x :: ds ∧ ds ≠ [] ∧ ∀ d ∈ ds, IsHexDigit d

/-- The spellings of numbers. -/
def IsNumeral (cs : List Char) : Prop :=
  cs = "NaN".toList ∨ cs = "Infinity".toList ∨ IsHexadecimal cs ∨ IsDecimal cs

/-- The form of the number that is spelled so. -/
def Spells : NumberForm → List Char → Prop
  | .nan, cs => cs = "NaN".toList
  | .infinity, cs => cs = "Infinity".toList
  | .hex, cs => IsHexadecimal cs
  | .integer, cs => IsDecimal cs ∧ cs.all Char.isDigit = true
  | .float, cs => IsDecimal cs ∧ cs.all Char.isDigit = false

theorem isNumeral_iff : IsNumeral cs ↔ ∃ form, Spells form cs := by
  constructor
  · rintro (h | h | h | h)
    · exact ⟨.nan, h⟩
    · exact ⟨.infinity, h⟩
    · exact ⟨.hex, h⟩
    · cases hd : cs.all Char.isDigit with
      | true => exact ⟨.integer, h, hd⟩
      | false => exact ⟨.float, h, hd⟩
  · rintro ⟨form, h⟩
    cases form with
    | nan => exact .inl h
    | infinity => exact .inr (.inl h)
    | hex => exact .inr (.inr (.inl h))
    | integer | float => exact .inr (.inr (.inr h.1))

/-- One digit at least stands in a mantissa. -/
theorem Mantissa.exists_digit (h : Mantissa m) : ∃ d ∈ m, d.isDigit = true := by
  cases h with
  | whole hne hd | pointed hne hd | fraction hne hd =>
    obtain ⟨d, hmem⟩ := List.exists_mem_of_ne_nil _ hne
    exact ⟨d, by simp [hmem], hd d hmem⟩

theorem not_spells_nil : ¬Spells f [] := by
  cases f with
  | nan | infinity => simp [Spells]
  | hex => rintro ⟨x, ds, -, h, -⟩; cases h
  | integer | float =>
    rintro ⟨⟨m, e, h, hm, -⟩, -⟩
    obtain ⟨rfl, -⟩ := List.append_eq_nil_iff.1 h.symm
    obtain ⟨d, hd, -⟩ := hm.exists_digit
    cases hd

/-- An exponent does not go on with a mantissa. -/
theorem Exponent.stops (h : Exponent e) :
    nextIs Char.isDigit e = false ∧ nextIs (· == '.') e = false := by
  cases h with
  | none => exact ⟨rfl, rfl⟩
  | some hc => rcases hc with rfl | rfl <;> exact ⟨rfl, rfl⟩

theorem splitSign_append (cs : List Char) : (splitSign cs).1 ++ (splitSign cs).2 = cs := by
  unfold splitSign
  split <;> rfl

theorem exponent_cons_iff : Exponent (c :: cs) ↔
    (c = 'e' ∨ c = 'E') ∧ (splitSign cs).2 ≠ [] ∧ ∀ d ∈ (splitSign cs).2, d.isDigit = true := by
  constructor
  · intro h
    cases h with
    | @some _ sign ds hc hsign hne hd =>
      have hsplit : (splitSign (sign ++ ds)).2 = ds := by
        rcases hsign with rfl | rfl | rfl
        · -- a digit is no sign
          cases ds with
          | nil => rfl
          | cons d ds =>
            have := hd d List.mem_cons_self
            unfold splitSign
            split <;> simp_all
        · rfl
        · rfl
      rw [hsplit]
      exact ⟨hc, hne, hd⟩
  · rintro ⟨hc, hne, hd⟩
    rw [← splitSign_append cs]
    refine .some hc ?_ hne hd
    unfold splitSign
    split <;> simp

theorem takeWhile_of_stop {p : Char → Bool} (hd : ∀ d ∈ ds, p d = true)
    (hs : nextIs p rest = false) :
    (ds ++ rest).takeWhile p = ds ∧ (ds ++ rest).dropWhile p = rest := by
  rw [List.takeWhile_append_of_pos hd, List.dropWhile_append_of_pos hd]
  cases rest with
  | nil => simp
  | cons c cs =>
    have hc : p c = false := hs
    simp [hc]

/-! ## The longest mantissa -/

/-- The longest mantissa at the start of a text, and what is behind it. -/
def splitMantissa (cs : List Char) : List Char × List Char :=
  match cs.takeWhile Char.isDigit, cs.dropWhile Char.isDigit with
  | ds, '.' :: rest => (ds ++ '.' :: rest.takeWhile Char.isDigit, rest.dropWhile Char.isDigit)
  | ds, rest => (ds, rest)

theorem splitMantissa_of_point (h : cs.dropWhile Char.isDigit = '.' :: rest) :
    splitMantissa cs = (cs.takeWhile Char.isDigit ++ '.' :: rest.takeWhile Char.isDigit,
      rest.dropWhile Char.isDigit) := by
  unfold splitMantissa
  split <;> simp_all

theorem splitMantissa_point (rest : List Char) :
    splitMantissa ('.' :: rest) = ('.' :: rest.takeWhile Char.isDigit, rest.dropWhile Char.isDigit) :=
  rfl

theorem splitMantissa_of_no_point (h : nextIs (· == '.') (cs.dropWhile Char.isDigit) = false) :
    splitMantissa cs = (cs.takeWhile Char.isDigit, cs.dropWhile Char.isDigit) := by
  unfold splitMantissa
  split
  · rename_i hp
    simp [hp, nextIs] at h
  · rfl

/-- What stands behind digits begins with a point or does not. -/
theorem point_or_not (cs : List Char) :
    (∃ rest, cs = '.' :: rest) ∨ nextIs (· == '.') cs = false := by
  cases cs with
  | nil => exact .inr rfl
  | cons c cs =>
    by_cases hc : c = '.'
    · exact .inl ⟨cs, by rw [hc]⟩
    · exact .inr (by simp [nextIs, hc])

theorem splitMantissa_append (cs : List Char) :
    (splitMantissa cs).1 ++ (splitMantissa cs).2 = cs := by
  rcases point_or_not (cs.dropWhile Char.isDigit) with ⟨rest, h⟩ | h
  · rw [splitMantissa_of_point h, List.append_assoc, List.cons_append,
      List.takeWhile_append_dropWhile, ← h, List.takeWhile_append_dropWhile]
  · rw [splitMantissa_of_no_point h, List.takeWhile_append_dropWhile]

/-- A decimal is cut between its mantissa and its exponent. -/
theorem splitMantissa_decimal (hm : Mantissa m) (he : Exponent e) :
    splitMantissa (m ++ e) = (m, e) := by
  obtain ⟨hdigit, hpoint⟩ := he.stops
  cases hm with
  | whole hne hd =>
    obtain ⟨ht, hr⟩ := takeWhile_of_stop hd hdigit
    rw [splitMantissa_of_no_point (by rwa [hr]), ht, hr]
  | @pointed _ fs hne hd hf =>
    have hstop : nextIs Char.isDigit ('.' :: (fs ++ e)) = false := rfl
    obtain ⟨ht, hr⟩ := takeWhile_of_stop hd hstop
    obtain ⟨ht', hr'⟩ := takeWhile_of_stop hf hdigit
    rw [List.append_assoc, List.cons_append, splitMantissa_of_point hr, ht, ht', hr']
  | fraction hne hd =>
    obtain ⟨ht, hr⟩ := takeWhile_of_stop hd hdigit
    rw [List.cons_append, splitMantissa_point, ht, hr]

theorem isDecimal_iff :
    IsDecimal cs ↔ Mantissa (splitMantissa cs).1 ∧ Exponent (splitMantissa cs).2 := by
  constructor
  · rintro ⟨m, e, rfl, hm, he⟩
    rw [splitMantissa_decimal hm he]
    exact ⟨hm, he⟩
  · rintro ⟨hm, he⟩
    exact ⟨_, _, (splitMantissa_append cs).symm, hm, he⟩

theorem Mantissa.isDecimal (h : Mantissa m) : IsDecimal m :=
  ⟨m, [], (List.append_nil m).symm, h, .none⟩

/-- What is cut off is a mantissa if there is a digit in it. -/
theorem mantissa_split_iff :
    Mantissa (splitMantissa cs).1 ↔ ∃ d ∈ (splitMantissa cs).1, d.isDigit = true := by
  refine ⟨Mantissa.exists_digit, ?_⟩
  have hleft : ∀ d ∈ cs.takeWhile Char.isDigit, d.isDigit = true := fun _ => List.mem_takeWhile_imp
  rcases point_or_not (cs.dropWhile Char.isDigit) with ⟨rest, h⟩ | h
  · have hright : ∀ d ∈ rest.takeWhile Char.isDigit, d.isDigit = true :=
      fun _ => List.mem_takeWhile_imp
    rw [splitMantissa_of_point h]
    intro hany
    cases hl : cs.takeWhile Char.isDigit with
    | nil =>
      refine .fraction ?_ hright
      rintro hr
      simp [hl, hr] at hany
    | cons d ds => exact .pointed (by simp) (hl ▸ hleft) hright
  · rw [splitMantissa_of_no_point h]
    rintro ⟨d, hd, -⟩
    exact .whole (List.ne_nil_of_mem hd) hleft

/-! ## Beginnings -/

/-- Whether a number can begin with these characters and not be a name. -/
def startsNumber (c : Char) (cs : List Char) : Bool :=
  c.isDigit || (c == '.' && nextIs Char.isDigit cs)

theorem startsNumber_of_isDecimal (h : IsDecimal (c :: cs)) : startsNumber c cs = true := by
  obtain ⟨m, e, heq, hm, -⟩ := h
  cases hm with
  | whole hne hd | pointed hne hd =>
    obtain ⟨d, ds, rfl⟩ := List.exists_cons_of_ne_nil hne
    obtain ⟨rfl, -⟩ := List.cons.inj heq
    simp [startsNumber, hd c List.mem_cons_self]
  | fraction hne hd =>
    obtain ⟨d, ds, rfl⟩ := List.exists_cons_of_ne_nil hne
    obtain ⟨rfl, rfl⟩ := List.cons.inj heq
    simp [startsNumber, nextIs, hd d List.mem_cons_self]

theorem mantissa_of_startsNumber (h : startsNumber c cs = true) :
    Mantissa (splitMantissa (c :: cs)).1 := by
  rw [mantissa_split_iff]
  by_cases hp : c = '.'
  · subst hp
    rw [splitMantissa_point]
    cases cs with
    | nil => simp [startsNumber, nextIs] at h
    | cons d ds =>
      have hd : d.isDigit = true := by simpa [startsNumber, nextIs] using h
      exact ⟨d, by simp [hd], hd⟩
  · have hc : c.isDigit = true := by simpa [startsNumber, hp] using h
    refine ⟨c, ?_, hc⟩
    rcases point_or_not ((c :: cs).dropWhile Char.isDigit) with ⟨rest, hr⟩ | hr
    · simp [splitMantissa_of_point hr, hc]
    · simp [splitMantissa_of_no_point hr, hc]

/-- A numeral begins like a number, or else it is one of the two names. -/
theorem start_of_spells (h : Spells f (c :: cs)) : startsNumber c cs = true ∨
    (f = .nan ∧ c :: cs = "NaN".toList) ∨ (f = .infinity ∧ c :: cs = "Infinity".toList) := by
  cases f with
  | nan => exact .inr (.inl ⟨rfl, h⟩)
  | infinity => exact .inr (.inr ⟨rfl, h⟩)
  | hex =>
    obtain ⟨x, ds, -, heq, -⟩ := h
    obtain ⟨rfl, -⟩ := List.cons.inj heq
    exact .inl rfl
  | integer | float => exact .inl (startsNumber_of_isDecimal h.1)

/-- The form of a number that is a decimal. -/
def decimalForm (cs : List Char) : NumberForm :=
  if cs.all Char.isDigit then .integer else .float

/-- A decimal without a point and an exponent is an integer. -/
theorem decimalForm_append (h : Exponent e) :
    decimalForm (m ++ e) = if e = [] then decimalForm m else .float := by
  cases h with
  | none => simp
  | some hc => rcases hc with rfl | rfl <;> simp [decimalForm]

/-- A text that begins like a number spells a hexadecimal or a decimal. -/
theorem spells_iff_of_startsNumber (h : startsNumber c cs = true) : Spells f (c :: cs) ↔
    (f = .hex ∧ IsHexadecimal (c :: cs)) ∨ (IsDecimal (c :: cs) ∧ f = decimalForm (c :: cs)) := by
  have hname : c ≠ 'N' ∧ c ≠ 'I' := by
    constructor <;> rintro rfl <;> cases h
  unfold decimalForm
  cases f <;> simp [Spells, hname] <;> split <;> simp_all

/-- After a zero the letter X decides for a hexadecimal. -/
theorem not_isDecimal_of_x {x : Char} (hx : x = 'x' ∨ x = 'X') : ¬IsDecimal ('0' :: x :: cs) := by
  rw [isDecimal_iff]
  rcases hx with rfl | rfl
  · rw [splitMantissa_of_no_point rfl]
    rintro ⟨-, he⟩
    simpa using exponent_cons_iff.1 he
  · rw [splitMantissa_of_no_point rfl]
    rintro ⟨-, he⟩
    simpa using exponent_cons_iff.1 he

theorem isHexadecimal_iff {x : Char} (hx : x = 'x' ∨ x = 'X') :
    IsHexadecimal ('0' :: x :: cs) ↔ cs ≠ [] ∧ ∀ d ∈ cs, IsHexDigit d := by
  constructor
  · rintro ⟨x, ds, -, heq, h⟩
    simp only [List.cons.injEq] at heq
    rwa [heq.2.2]
  · exact fun h => ⟨x, cs, hx, rfl, h⟩

/-! ## Conversion -/

theorem hexValue?_isSome_iff : (Numeric.hexValue? d).isSome ↔ IsHexDigit d := by
  unfold Numeric.hexValue? IsHexDigit
  grind

/-- The exponent is read past the sign that the scanner cuts off. -/
theorem readExponent_cons (c : Char) (cs : List Char) : Numeric.readExponent (c :: cs) =
    if c == 'e' || c == 'E' then
      if (splitSign cs).2.isEmpty || !(splitSign cs).2.all Char.isDigit then none
      else some (if nextIs (· == '-') cs then -(Numeric.ofDigits (splitSign cs).2 : Int)
        else Numeric.ofDigits (splitSign cs).2)
    else none := by
  cases cs with
  | nil => rfl
  | cons d ds =>
    unfold Numeric.readExponent splitSign
    by_cases hminus : d = '-'
    · simp [hminus, nextIs]
    · by_cases hplus : d = '+' <;> simp [hminus, hplus, nextIs]

theorem readExponent_isSome_iff : (Numeric.readExponent e).isSome ↔ Exponent e := by
  cases e with
  | nil => exact ⟨fun _ => .none, fun _ => rfl⟩
  | cons c cs =>
    rw [readExponent_cons, exponent_cons_iff]
    split
    · split <;> rename_i hds
      · have : (splitSign cs).2 = [] ∨ ¬∀ d ∈ (splitSign cs).2, d.isDigit = true := by simpa using hds
        simp only [Option.isSome_none, Bool.false_eq_true, false_iff]
        tauto
      · simp_all
    · simp_all

theorem readUnsigned_of_point (h : cs.dropWhile Char.isDigit = '.' :: rest) :
    (Numeric.readUnsigned cs).isSome ↔
      (cs.takeWhile Char.isDigit ≠ [] ∨ rest.takeWhile Char.isDigit ≠ []) ∧
        (Numeric.readExponent (rest.dropWhile Char.isDigit)).isSome := by
  simp only [Numeric.readUnsigned, h, Bool.and_eq_true, List.isEmpty_iff]
  split
  · rename_i hnone
    simp [hnone]
  · rename_i hsome
    rw [Option.isSome_map, ← not_and_or, and_iff_right hsome]

theorem readUnsigned_of_no_point (h : nextIs (· == '.') (cs.dropWhile Char.isDigit) = false) :
    (Numeric.readUnsigned cs).isSome ↔
      cs.takeWhile Char.isDigit ≠ [] ∧ (Numeric.readExponent (cs.dropWhile Char.isDigit)).isSome := by
  unfold Numeric.readUnsigned
  generalize cs.dropWhile Char.isDigit = tail at h
  have htail : ∀ rest, tail ≠ '.' :: rest := by
    rintro rest rfl
    cases h
  simp only [List.isEmpty_nil, Bool.and_true, List.isEmpty_iff]
  split
  · rename_i hnone
    simp [hnone]
  · rename_i hsome
    rw [Option.isSome_map, and_iff_right hsome]

theorem exists_digit_iff (h : ∀ d ∈ ds, d.isDigit = true) :
    (∃ d ∈ ds, d.isDigit = true) ↔ ds ≠ [] := by
  constructor
  · rintro ⟨d, hd, -⟩
    exact List.ne_nil_of_mem hd
  · intro hne
    obtain ⟨d, hd⟩ := List.exists_mem_of_ne_nil ds hne
    exact ⟨d, hd, h d hd⟩

/-- **The texts that are converted into numbers** are the decimals. -/
theorem readUnsigned_isSome_iff : (Numeric.readUnsigned cs).isSome ↔ IsDecimal cs := by
  have hdigits : ∀ cs : List Char, ∀ d ∈ cs.takeWhile Char.isDigit, d.isDigit = true :=
    fun _ _ => List.mem_takeWhile_imp
  rw [isDecimal_iff, ← readExponent_isSome_iff, mantissa_split_iff]
  rcases point_or_not (cs.dropWhile Char.isDigit) with ⟨rest, h⟩ | h
  · rw [splitMantissa_of_point h, readUnsigned_of_point h, ← exists_digit_iff (hdigits cs),
      ← exists_digit_iff (hdigits rest)]
    simp [or_and_right, exists_or]
  · rw [splitMantissa_of_no_point h, readUnsigned_of_no_point h, exists_digit_iff (hdigits cs)]

end Steppable
