import Mathlib
import Steppable.Proofs.Token.Literals

/-!
# Conversion of texts

A text is converted into a number by other code than a literal is read: a test for `0x`, a reader of
integers of 64 bits, and a reader of decimals with a sign. Two readers that should accept the same
texts can come apart where nobody looks, and these do: the reader of integers takes a sign after
`0x`, which no literal has, and stops at 64 bits, which a literal does not.

**Theorem (`literals_converted`).** Apart from these two cases, a text without blanks around it is
converted exactly if it is the literal of a decimal or of `Infinity`, with a sign or without one, or
that of a hexadecimal; and in the two cases this fails.

That a result is a number is known from the operations alone. A product or a quotient is one if no
operand is not a number and the second one is neither zero nor infinite, and the powers of ten that
a decimal is scaled with are neither.
-/

namespace Steppable.Numeric

open Token Cursor
open Float.Model Float.Model.UnpackedFloat

variable {w : String} {form : NumberForm} {c d x : Char} {cs ds es : List Char}

/-! ## Floats that are numbers -/

theorem isNaN_unpack (b : BitVec Format.binary64.numBits) :
    (UnpackedFloat.unpack Format.binary64 b).isNaN = true ↔
      unpackExponent b = -1#_ ∧ unpackMantissa b ≠ 0#_ := by
  unfold UnpackedFloat.unpack
  by_cases he : unpackExponent b = -1#_ <;> by_cases hm : unpackMantissa b = 0#_
  · simp [he, hm, UnpackedFloat.isNaN]
  · simp [he, hm, UnpackedFloat.isNaN]
  · simp only [he, if_false, hm]
    split <;> simp [UnpackedFloat.isNaN]
  · simp only [he, if_false, hm]
    split <;> simp [UnpackedFloat.isNaN]

/-- A float that is packed is a number if it was one before. -/
theorem isNaN_pack (u : UnpackedFloat) : (Float.Model.pack u).isNaN = u.isNaN := by
  show (UnpackedFloat.unpack Format.binary64 (UnpackedFloat.pack Format.binary64 u)).isNaN = u.isNaN
  rw [Bool.eq_iff_iff, isNaN_unpack]
  fun_cases UnpackedFloat.pack Format.binary64 u
  · simp [UnpackedFloat.packedNaN, UnpackedFloat.isNaN]
  · simp [UnpackedFloat.packedInfinity, UnpackedFloat.isNaN]
  · simp [UnpackedFloat.packedZero, UnpackedFloat.isNaN]
  · simp [UnpackedFloat.packedInfinity, UnpackedFloat.isNaN]
  · rename_i s m e hm bits biased h₁ h₂
    -- the exponent of a finite float is below the one that is kept for what is no number
    have hexponent : BitVec.ofNat 11 biased ≠ -1#11 := by
      intro h
      have hlt : biased + 1 < 2 ^ 11 := not_le.1 h₁
      have heq : biased % 2 ^ 11 = 2 ^ 11 - 1 := congrArg BitVec.toNat h
      omega
    rw [unpackExponent_packComponents]
    exact iff_of_false (fun h => hexponent h.1) (by simp [UnpackedFloat.isNaN])
  · simp [UnpackedFloat.isNaN]

theorem isNaN_round (f : Format) (s : Sign) (m : Nat) (e : Int) (a : Accuracy) :
    (roundWithAccuracy f s m e a).isNaN = false := by
  unfold roundWithAccuracy
  dsimp only
  split <;> rfl

/-- Whether a float is finite and not zero. -/
def isUnit : UnpackedFloat → Bool
  | .finite .. => true
  | _ => false

theorem isNaN_mul {u v : UnpackedFloat} (hu : u.isNaN = false) (hv : isUnit v = true) :
    (UnpackedFloat.mul Format.binary64 u v).isNaN = false := by
  cases v with
  | finite =>
    cases u with
    | notANumber => cases hu
    | finite => exact isNaN_round ..
    | _ => rfl
  | _ => cases hv

theorem isNaN_div {u v : UnpackedFloat} (hu : u.isNaN = false) (hv : isUnit v = true) :
    (UnpackedFloat.div Format.binary64 u v).isNaN = false := by
  cases v with
  | finite =>
    cases u with
    | notANumber => cases hu
    | finite => exact isNaN_round ..
    | _ => rfl
  | _ => cases hv

theorem isNaN_normalize (m e : Int) (s : Sign) :
    (UnpackedFloat.normalize Format.binary64 m e s).isNaN = false := by
  unfold UnpackedFloat.normalize
  split
  · exact isNaN_round ..
  · rfl
  · exact isNaN_round ..

theorem isNaN_neg (x : Float) : (-x).isNaN = x.isNaN := by
  show (Float.Model.pack x.toModel.unpack.neg).isNaN = x.toModel.unpack.isNaN
  rw [isNaN_pack]
  cases x.toModel.unpack <;> rfl

/-- The powers of ten that are floats. -/
theorem isUnit_powersOfTen :
    ∀ x ∈ Float.exactlyRepresentablePowersOfTen.toList, isUnit x.toModel.unpack = true := by
  decide +kernel

theorem isNaN_scaled (m : Nat) (e : Int) :
    (UnpackedFloat.ofScientific Format.binary64 m e).isNaN = false := by
  unfold UnpackedFloat.ofScientific
  split
  · rfl
  · split
    · rfl
    · split
      · rfl
      · split
        · refine isNaN_mul ?_ ?_ <;> rfl
        · refine isNaN_div ?_ ?_ <;> rfl

theorem isNaN_ofScientific (m : Nat) (negative : Bool) (e : Nat) :
    (Float.ofScientific m negative e).isNaN = false := by
  unfold Float.ofScientific
  split
  · rename_i h
    have he : e < Float.exactlyRepresentablePowersOfTen.size := by
      have : Float.exactlyRepresentablePowersOfTen.size = 23 := rfl
      omega
    have hunit := isUnit_powersOfTen _ (Array.getElem_mem_toList he)
    have hm : m.toUInt64.toFloat.isNaN = false := (isNaN_pack _).trans (isNaN_normalize ..)
    split
    · exact (isNaN_pack _).trans (isNaN_div hm hunit)
    · exact (isNaN_pack _).trans (isNaN_mul hm hunit)
  · exact (isNaN_pack _).trans (isNaN_scaled ..)

theorem isNaN_ofNat (n : Nat) : (Float.ofNat n).isNaN = false :=
  isNaN_ofScientific n false 0

theorem not_isNaN_nan : ¬nan.isNaN = false := by decide +kernel

theorem isNaN_infinity : infinity.isNaN = false := by decide +kernel

/-! ## Hexadecimals -/

/-- The number that the hexadecimal digits of a text make. -/
def hexNumber (ds : List Char) : Nat :=
  (ds.filterMap hexValue?).foldl (fun n v => n * 16 + v) 0

theorem mapM_hexValue?_eq_some {vs : List Nat} : ds.mapM hexValue? = some vs ↔
    (∀ d ∈ ds, IsHexDigit d) ∧ ds.filterMap hexValue? = vs := by
  simp only [← hexValue?_isSome_iff]
  induction ds generalizing vs with
  | nil => simp
  | cons d ds ih =>
    rw [List.mapM_cons, List.forall_mem_cons]
    cases hd : hexValue? d with
    | none => simp
    | some v => simp [hd, ih, Option.bind_eq_some_iff, and_assoc]

/-- Hexadecimal digits whose number fits 64 bits. -/
def IsNarrow (ds : List Char) : Prop :=
  ds ≠ [] ∧ (∀ d ∈ ds, IsHexDigit d) ∧ hexNumber ds < pow2 64

/-- What remains of a hexadecimal without the sign that its reader accepts. -/
def afterPlus : List Char → List Char
  | '+' :: ds => ds
  | ds => ds

/-- A hexadecimal is converted if it fits 64 bits. -/
theorem isNaN_readHex : ((readHex cs).getD nan).isNaN = false ↔ IsNarrow (afterPlus cs) := by
  unfold readHex
  dsimp only
  split
  · rename_i v vs hvs
    obtain ⟨hall, hvs⟩ := mapM_hexValue?_eq_some.1 (show (afterPlus cs).mapM hexValue? = _ from hvs)
    have hne : afterPlus cs ≠ [] := by
      intro h
      simp [h] at hvs
    rw [IsNarrow, and_iff_right hne, and_iff_right hall, hexNumber, hvs]
    split
    · exact iff_of_true (isNaN_ofNat _) ‹_›
    · exact iff_of_false not_isNaN_nan ‹_›
  · rename_i hnone
    refine iff_of_false not_isNaN_nan ?_
    rintro ⟨hne, hall, -⟩
    cases hvs : (afterPlus cs).filterMap hexValue? with
    | nil =>
      obtain ⟨d, hd⟩ := List.exists_mem_of_ne_nil _ hne
      have hsome := hexValue?_isSome_iff.2 (hall d hd)
      rw [List.filterMap_eq_nil_iff.1 hvs d hd] at hsome
      cases hsome
    | cons v vs => exact hnone v vs (mapM_hexValue?_eq_some.2 ⟨hall, hvs⟩)

/-! ## Decimals -/

theorem isNaN_ofDecimal (ds : List Char) (exponent : Int) : (ofDecimal ds exponent).isNaN = false := by
  unfold ofDecimal
  split <;> exact isNaN_ofScientific ..

theorem isNaN_readUnsigned {y : Float} (h : readUnsigned cs = some y) : y.isNaN = false := by
  unfold readUnsigned at h
  split at h
  dsimp only at h
  split at h
  · cases h
  · obtain ⟨e, -, rfl⟩ := Option.map_eq_some_iff.1 h
    exact isNaN_ofDecimal ..

theorem isNaN_readDecimal {y : Float} (h : readDecimal cs = some y) : y.isNaN = false := by
  unfold readDecimal at h
  split at h
  · obtain ⟨y, hy, rfl⟩ := Option.map_eq_some_iff.1 h
    exact (isNaN_neg y).trans (isNaN_readUnsigned hy)
  · exact isNaN_readUnsigned h
  · exact isNaN_readUnsigned h

/-- The signs before a number. -/
def signs : List (List Char) :=
  [[], ['+'], ['-']]

theorem mem_signs {sign : List Char} :
    sign ∈ signs ↔ sign = [] ∨ sign = ['+'] ∨ sign = ['-'] := by
  simp [signs]

theorem readDecimal_isSome_iff :
    (readDecimal cs).isSome ↔ ∃ sign ∈ signs, ∃ ds, cs = sign ++ ds ∧ IsDecimal ds := by
  simp only [mem_signs, exists_eq_or_imp, exists_eq_left, List.nil_append, List.cons_append]
  have hsign : ∀ c ds, c = '+' ∨ c = '-' → ¬IsDecimal (c :: ds) := by
    rintro c ds hc h
    have := startsNumber_of_isDecimal h
    rcases hc with rfl | rfl <;> cases this
  unfold readDecimal
  split
  · rw [Option.isSome_map, readUnsigned_isSome_iff]
    simp [hsign]
  · rw [readUnsigned_isSome_iff]
    simp [hsign]
  · rw [readUnsigned_isSome_iff]
    simp_all

/-! ## Texts -/

theorem trim_eq_self (hfirst : ∀ c ∈ w.toList.head?, Text.isBlank c = false)
    (hlast : ∀ c ∈ w.toList.getLast?, Text.isBlank c = false) : Text.trim w = w := by
  have hdrop : ∀ cs : List Char, (∀ c ∈ cs.head?, Text.isBlank c = false) →
      cs.dropWhile Text.isBlank = cs := by
    intro cs h
    cases cs with
    | nil => rfl
    | cons c cs => simp [h c rfl]
  rw [Text.trim, hdrop _ hfirst, Text.dropBlankEnd, hdrop _ (by rwa [List.head?_reverse]),
    List.reverse_reverse, String.ofList_toList]

/-- A text that begins like a hexadecimal. -/
def IsPrefixed (w : String) (ds : List Char) : Prop :=
  ∃ x, (x = 'x' ∨ x = 'X') ∧ w.toList = '0' :: x :: ds

theorem isNaN_ofText_of_prefixed (ht : Text.trim w = w) (h : IsPrefixed w ds) :
    (ofText w).isNaN = false ↔ IsNarrow (afterPlus ds) := by
  obtain ⟨x, rfl | rfl, hw⟩ := h
  · rw [ofText, ht, hw]
    exact isNaN_readHex
  · rw [ofText, ht, hw]
    exact isNaN_readHex

/-- A decimal or an infinity, with a sign or without one. -/
def IsSigned (cs : List Char) : Prop :=
  ∃ sign ∈ signs, ∃ ds, cs = sign ++ ds ∧ (IsDecimal ds ∨ ds = "Infinity".toList)

theorem isSigned_iff : IsSigned cs ↔ (cs = "Infinity".toList ∨ cs = "+Infinity".toList) ∨
    cs = "-Infinity".toList ∨ (readDecimal cs).isSome := by
  rw [readDecimal_isSome_iff]
  unfold IsSigned
  constructor
  · rintro ⟨sign, hsign, ds, rfl, hd | rfl⟩
    · exact .inr (.inr ⟨sign, hsign, ds, rfl, hd⟩)
    · obtain rfl | rfl | rfl := mem_signs.1 hsign
      · exact .inl (.inl rfl)
      · exact .inl (.inr rfl)
      · exact .inr (.inl rfl)
  · rintro ((rfl | rfl) | rfl | ⟨sign, hsign, ds, rfl, hd⟩)
    · exact ⟨[], by decide, _, rfl, .inr rfl⟩
    · exact ⟨['+'], by decide, _, rfl, .inr rfl⟩
    · exact ⟨['-'], by decide, _, rfl, .inr rfl⟩
    · exact ⟨sign, hsign, ds, rfl, .inl hd⟩

theorem isNaN_ofText_of_not_prefixed (ht : Text.trim w = w) (hne : w ≠ "")
    (h : ∀ ds, ¬IsPrefixed w ds) : (ofText w).isNaN = false ↔ IsSigned w.toList := by
  rw [ofText, ht, isSigned_iff]
  split
  · rename_i hw
    exact absurd (String.toList_eq_nil_iff.1 hw) hne
  · rename_i hw
    exact absurd ⟨_, .inl rfl, hw⟩ (h _)
  · rename_i hw
    exact absurd ⟨_, .inr rfl, hw⟩ (h _)
  · simp only [Bool.or_eq_true, beq_iff_eq]
    split
    · exact iff_of_true isNaN_infinity (.inl ‹_›)
    · rename_i hpos
      rw [or_iff_right hpos]
      split
      · exact iff_of_true ((isNaN_neg _).trans isNaN_infinity) (.inl ‹_›)
      · rename_i hneg
        rw [or_iff_right hneg]
        cases hy : readDecimal w.toList with
        | none => exact iff_of_false not_isNaN_nan Bool.false_ne_true
        | some y => exact iff_of_true (isNaN_readDecimal hy) rfl

/-! ## Literals -/

/-- The texts after `0x` that the reader of integers takes and no literal has, or the other way
round. -/
def IsMisread (ds : List Char) : Prop :=
  (∃ es, ds = '+' :: es ∧ IsNarrow es) ∨
    (ds ≠ [] ∧ (∀ d ∈ ds, IsHexDigit d) ∧ pow2 64 ≤ hexNumber ds)

/-- A literal of a decimal or an infinity, with a sign or without one. -/
def IsSignedLiteral (w : String) : Prop :=
  ∃ sign lit form, (sign = "" ∨ sign = "+" ∨ sign = "-") ∧ w = sign ++ lit ∧
    (form = .integer ∨ form = .float ∨ form = .infinity) ∧ ReadsWhole lit form

theorem isSignedLiteral_iff : IsSignedLiteral w ↔ IsSigned w.toList := by
  have hform : ∀ lit : String, (∃ form, (form = .integer ∨ form = .float ∨ form = .infinity) ∧
      ReadsWhole lit form) ↔ IsDecimal lit.toList ∨ lit.toList = "Infinity".toList := by
    intro lit
    simp only [readsWhole_iff, or_and_right, exists_or, exists_eq_left, Spells]
    cases lit.toList.all Char.isDigit <;> simp
  constructor
  · rintro ⟨sign, lit, form, hsign, rfl, hlit⟩
    refine ⟨sign.toList, ?_, lit.toList, String.toList_append, (hform lit).1 ⟨form, hlit⟩⟩
    rcases hsign with rfl | rfl | rfl <;> decide
  · rintro ⟨sign, hsign, ds, hw, hd⟩
    rw [← String.toList_ofList (l := ds)] at hd
    obtain ⟨form, hlit⟩ := (hform _).2 hd
    refine ⟨String.ofList sign, String.ofList ds, form, ?_, ?_, hlit⟩
    · obtain rfl | rfl | rfl := mem_signs.1 hsign
      · exact .inl rfl
      · exact .inr (.inl rfl)
      · exact .inr (.inr rfl)
    · rw [← String.toList_inj, hw]
      simp

theorem not_isSigned_of_prefixed (h : IsPrefixed w ds) : ¬IsSigned w.toList := by
  obtain ⟨x, hx, hw⟩ := h
  rintro ⟨sign, hsign, es, hes, hd⟩
  rw [hw] at hes
  obtain rfl | rfl | rfl := mem_signs.1 hsign
  · obtain rfl : '0' :: x :: ds = es := hes
    rcases hd with hd | hd
    · exact not_isDecimal_of_x hx hd
    · simp at hd
  · simp at hes
  · simp at hes

theorem isHexadecimal_iff_prefixed : IsHexadecimal w.toList ↔
    ∃ ds, IsPrefixed w ds ∧ ds ≠ [] ∧ ∀ d ∈ ds, IsHexDigit d := by
  constructor
  · rintro ⟨x, ds, hx, hw, h⟩
    exact ⟨ds, ⟨x, hx, hw⟩, h⟩
  · rintro ⟨ds, ⟨x, hx, hw⟩, h⟩
    exact ⟨x, ds, hx, hw, h⟩

theorem IsPrefixed.unique (h : IsPrefixed w ds) (h' : IsPrefixed w es) : ds = es := by
  obtain ⟨x, -, hw⟩ := h
  obtain ⟨y, -, hw'⟩ := h'
  simp_all

/-- What is converted after `0x`, against what is read. -/
theorem afterPlus_agrees :
    (IsNarrow (afterPlus ds) ↔ ds ≠ [] ∧ ∀ d ∈ ds, IsHexDigit d) ↔ ¬IsMisread ds := by
  by_cases hplus : ∃ es, ds = '+' :: es
  · obtain ⟨es, rfl⟩ := hplus
    have hno : ¬IsHexDigit '+' := by decide
    simp [afterPlus, IsMisread, hno]
  · have hafter : afterPlus ds = ds := by
      unfold afterPlus
      split
      · exact absurd ⟨_, rfl⟩ hplus
      · rfl
    have hnone : ∀ es, ds ≠ '+' :: es := fun es h => hplus ⟨es, h⟩
    rw [hafter]
    simp only [IsNarrow, IsMisread, hnone, false_and, exists_false, false_or, ← not_lt]
    tauto

/-- **Conversion and literals agree** on the texts without blanks around them, but for the
hexadecimals that are misread. -/
theorem literals_converted (hne : w ≠ "") (hfirst : ∀ c ∈ w.toList.head?, Text.isBlank c = false)
    (hlast : ∀ c ∈ w.toList.getLast?, Text.isBlank c = false) :
    ((ofText w).isNaN = false ↔ IsSignedLiteral w ∨ ReadsWhole w .hex) ↔
      ¬∃ ds, IsPrefixed w ds ∧ IsMisread ds := by
  have ht := trim_eq_self hfirst hlast
  rw [isSignedLiteral_iff, readsWhole_iff]
  show (_ ↔ _ ∨ IsHexadecimal w.toList) ↔ _
  rw [isHexadecimal_iff_prefixed]
  by_cases hp : ∃ ds, IsPrefixed w ds
  · obtain ⟨ds, hds⟩ := hp
    have hexists : ∀ P : List Char → Prop, (∃ es, IsPrefixed w es ∧ P es) ↔ P ds := fun P =>
      ⟨fun ⟨es, hes, h⟩ => hds.unique hes ▸ h, fun h => ⟨ds, hds, h⟩⟩
    rw [isNaN_ofText_of_prefixed ht hds, or_iff_right (not_isSigned_of_prefixed hds), hexists, hexists]
    exact afterPlus_agrees
  · rw [isNaN_ofText_of_not_prefixed ht hne (not_exists.1 hp)]
    refine iff_of_true (or_iff_left ?_).symm ?_
    · exact fun ⟨ds, hds, _⟩ => hp ⟨ds, hds⟩
    · exact fun ⟨ds, hds, _⟩ => hp ⟨ds, hds⟩

theorem literals_converted_negative :
    (ofText "-.5e3").isNaN = false ↔ IsSignedLiteral "-.5e3" ∨ ReadsWhole "-.5e3" .hex :=
  (literals_converted (by decide) (by rintro _ ⟨⟩; rfl) (by rintro _ ⟨⟩; rfl)).2 (by
    rintro ⟨ds, ⟨x, -, hw⟩, -⟩
    simp at hw)

/-- A sign after `0x` is converted and no literal, and a literal of 65 bits is not converted. -/
theorem hexadecimals_misread :
    ¬((ofText "0x+1F").isNaN = false ↔ IsSignedLiteral "0x+1F" ∨ ReadsWhole "0x+1F" .hex) ∧
      ¬((ofText "0x10000000000000000").isNaN = false ↔
        IsSignedLiteral "0x10000000000000000" ∨ ReadsWhole "0x10000000000000000" .hex) := by
  constructor
  · intro h
    rcases h.1 (by decide +kernel) with hs | hh
    · exact not_isSigned_of_prefixed ⟨'x', .inl rfl, rfl⟩ (isSignedLiteral_iff.1 hs)
    · obtain ⟨ds, ⟨x, -, hw⟩, -, hd⟩ := isHexadecimal_iff_prefixed.1 (readsWhole_iff.1 hh)
      simp only [String.reduceToList, List.cons.injEq, true_and] at hw
      exact absurd (hd '+' (by simp [← hw.2])) (by decide)
  · intro h
    have hdigits : ∀ d ∈ "10000000000000000".toList, IsHexDigit d := by simp [IsHexDigit]
    have hliteral : ReadsWhole "0x10000000000000000" .hex :=
      readsWhole_iff.2 ⟨'x', _, .inl rfl, rfl, by decide, hdigits⟩
    exact absurd (h.2 (.inr hliteral)) (by decide +kernel)

end Steppable.Numeric
