import Mathlib.Tactic.Ring
import PegParsing.Proofs.Number.Literal
import PegParsing.Proofs.Number.Rounding

/-!
# The range of real numbers

A literal is rounded to the nearest number of its format, once and exactly. It is out of range if this
is an infinity, or if it is a zero although the literal does not stand for zero; otherwise it is the
number that was asked for, down to its bits (`RealFormat.classifies_literals`). Whether a literal stands
for zero can be seen from its digits before the exponent.

`BinaryFormat.ofBits` reads a word as the formats for interchange lay it out: a bit for the sign, the
field of the exponent, and the significand without its leading bit.
-/

namespace PegParsing

/-! ## Bits -/

namespace BinaryFormat

/-- The value of the three fields of a word. Without a leading bit in the significand the field of the
exponent is zero; where all its bits are set there is no finite number. -/
def ofFields (f : BinaryFormat) (negative : Bool) (field fraction : Nat) : BinaryFloat :=
  if field = 2 ^ f.exponentBits - 1 then
    if fraction = 0 then .infinite negative else .nan
  else if field = 0 then .finite negative fraction f.minExponent
  else .finite negative (2 ^ (f.precision - 1) + fraction) (f.minExponent + field - 1)

/-- The value of a word. -/
def ofBits (f : BinaryFormat) (word : Nat) : BinaryFloat :=
  f.ofFields (word / 2 ^ (f.precision - 1) / 2 ^ f.exponentBits % 2 = 1)
    (word / 2 ^ (f.precision - 1) % 2 ^ f.exponentBits) (word % 2 ^ (f.precision - 1))

variable {f : BinaryFormat} {m : Nat} {e : Int} {x : ℚ} {negative : Bool}

theorem signBit_eq (hf : f.Proper) (negative : Bool) : bits.signBit f negative =
    2 ^ (f.precision - 1) * (2 ^ f.exponentBits * negative.toNat) := by
  have hsum : f.precision + f.exponentBits - 1 = f.precision - 1 + f.exponentBits :=
    Nat.sub_add_comm (Nat.le_of_succ_le hf.precision)
  unfold bits.signBit
  cases negative with
  | false => rfl
  | true =>
    rw [if_pos rfl, Nat.one_shiftLeft, hsum, Nat.pow_add, Bool.toNat_true, Nat.mul_one]

/-- The fields of a word. -/
theorem ofBits_fields (hf : f.Proper) (negative : Bool) {field fraction : Nat}
    (hfield : field < 2 ^ f.exponentBits) (hfraction : fraction < 2 ^ (f.precision - 1)) :
    f.ofBits (bits.signBit f negative + field * 2 ^ (f.precision - 1) + fraction) =
      f.ofFields negative field fraction := by
  have hword : bits.signBit f negative + field * 2 ^ (f.precision - 1) + fraction =
      2 ^ (f.precision - 1) * (2 ^ f.exponentBits * negative.toNat + field) + fraction := by
    rw [signBit_eq hf]
    ring
  have hdiv : (2 ^ f.exponentBits * negative.toNat + field) / 2 ^ f.exponentBits =
      negative.toNat := by
    rw [Nat.mul_add_div (Nat.two_pow_pos _), Nat.div_eq_of_lt hfield, Nat.add_zero]
  unfold ofBits
  rw [hword, Nat.mul_add_mod, Nat.mod_eq_of_lt hfraction, Nat.mul_add_div (Nat.two_pow_pos _),
    Nat.div_eq_of_lt hfraction, Nat.add_zero, Nat.mul_add_mod, Nat.mod_eq_of_lt hfield, hdiv]
  cases negative <;> rfl

/-- No finite number has all bits of its exponent field set. -/
theorem Proper.field_lt (hf : f.Proper) (he : e ≤ f.maxExponent) :
    (e - f.minExponent).toNat + 1 < 2 ^ f.exponentBits - 1 := by
  have hpow : 2 ^ f.exponentBits = Nat.pow 2 (f.exponentBits - 1) * 2 :=
    (Nat.two_pow_pred_mul_two (Nat.zero_lt_of_lt hf.exponentBits)).symm
  have hle := hf.two_le_pow
  unfold minExponent maxExponent at *
  rw [hpow]
  omega

/-- A number can be found again from its bits. -/
theorem ofBits_bits_finite (hf : f.Proper) (h : f.IsNumber m e) (negative : Bool) :
    f.ofBits (f.bits (.finite negative m e)) = .finite negative m e := by
  have hfield := hf.field_lt h.le
  have hbits : f.bits (.finite negative m e) =
      bits.signBit f negative + (e - f.minExponent).toNat * 2 ^ (f.precision - 1) + m := by
    rw [← Nat.shiftLeft_eq]
    rfl
  rw [hbits]
  by_cases hm : m < 2 ^ (f.precision - 1)
  · obtain rfl := h.full.resolve_right (not_le.2 hm)
    rw [sub_self, Int.toNat_zero] at hfield ⊢
    rw [ofBits_fields hf negative (Nat.two_pow_pos _) hm]
    unfold ofFields
    rw [if_neg (by omega), if_pos rfl]
  · obtain ⟨fraction, rfl⟩ := Nat.exists_eq_add_of_le (not_lt.1 hm)
    have hfraction : fraction < 2 ^ (f.precision - 1) := by
      have hlt := h.lt
      rw [hf.two_pow] at hlt
      omega
    -- the leading bit counts one up in the field of the exponent
    have hcarry : (e - f.minExponent).toNat * 2 ^ (f.precision - 1) +
        (2 ^ (f.precision - 1) + fraction) =
          ((e - f.minExponent).toNat + 1) * 2 ^ (f.precision - 1) + fraction := by
      ring
    rw [Nat.add_assoc, hcarry, ← Nat.add_assoc,
      ofBits_fields hf negative (by omega) hfraction]
    unfold ofFields
    rw [if_neg (by omega), if_neg (by omega)]
    have hge := h.ge
    congr 1
    omega

/-- An infinity has no other bits set in its significand. -/
theorem ofBits_bits_infinite (hf : f.Proper) (negative : Bool) :
    f.ofBits (f.bits (.infinite negative)) = .infinite negative := by
  have hbits : f.bits (.infinite negative) =
      bits.signBit f negative + (2 ^ f.exponentBits - 1) * 2 ^ (f.precision - 1) + 0 := by
    rw [← Nat.shiftLeft_eq, ← Nat.one_shiftLeft]
    rfl
  rw [hbits, ofBits_fields hf negative (Nat.sub_lt (Nat.two_pow_pos _) Nat.one_pos)
    (Nat.two_pow_pos _)]
  unfold ofFields
  rw [if_pos rfl, if_pos rfl]

/-- What a number is rounded to can be found again from its bits. -/
theorem Rounds.ofBits_bits (hf : f.Proper) {y : BinaryFloat} (h : f.Rounds negative x y) :
    f.ofBits (f.bits y) = y := by
  cases h with
  | finite _ hm => exact ofBits_bits_finite hf hm.isNumber negative
  | infinite => exact ofBits_bits_infinite hf negative

end BinaryFormat

/-! ## Zero -/

namespace Decimal

open PegParsing.Parser

variable {w : List Char} {d : Decimal}

theorem magnitude_ne_zero_iff : d.magnitude ≠ 0 ↔ d.significand ≠ 0 := by
  have hpow : (10 : ℚ) ^ d.exponent ≠ 0 := by positivity
  unfold magnitude
  rw [mul_ne_zero_iff_right hpow, Nat.cast_ne_zero]

/-- A numeral is negative just if it begins with a minus. -/
theorem IsNumeral.negative_eq (h : IsNumeral w d) : d.negative = (w.head? == some '-') := by
  obtain ⟨hs, hm, -, -⟩ := h
  cases hs with
  | plus => rfl
  | minus => rfl
  | absent =>
    obtain ⟨ds, frac, fs, hds, hfs, hfrac, rfl, rfl, hne, rfl⟩ := hm.exists_parts
    rw [List.nil_append, List.append_assoc]
    exact (beq_eq_false_iff_ne.2
      (head?_of_stops_sign (stops_sign_of_parts hds hfrac hne _)).2).symm

/-- A numeral whose digits before the exponent are all zero stands for zero. -/
theorem IsNumeral.significand_eq_zero (h : IsNumeral w d)
    (hzero : ∀ c ∈ mantissa w, Predicate.isDigit c = true → c = '0') : d.significand = 0 := by
  by_contra hne
  obtain ⟨c, hc, hnonzero⟩ := List.any_eq_true.1 (h.any_nonzero_iff.2 hne)
  have hrange := nonzero_iff.1 (of_decide_eq_true hnonzero)
  obtain rfl := hzero c hc (isDigit_iff.2 ⟨by omega, hrange.2⟩)
  exact absurd hrange.1 (by decide)

end Decimal

/-! ## Literals -/

theorem BinaryFormat.proper_of_eq {f : BinaryFormat} (h : f = .single ∨ f = .double) : f.Proper := by
  rcases h with rfl | rfl
  · exact ⟨by decide, by decide⟩
  · exact ⟨by decide, by decide⟩

/-- Zero is a number of every format. -/
theorem BinaryFormat.inRange_of_zero {f : BinaryFormat} {d : Decimal} (h : d.significand = 0) :
    f.InRange d ∧ f.ofDecimal d = f.zero d.negative := by
  have hzero : f.ofDecimal d = f.zero d.negative := by
    unfold ofDecimal
    rw [if_pos h]
  refine ⟨⟨?_, fun _ => h⟩, hzero⟩
  rw [hzero]
  rfl

namespace RealFormat

open Cursor Decimal

variable {f : RealFormat} {w s : List Char} {here stop : Cursor}

/-- A literal overflows, behind it, just if it is rounded to an infinity or, without being zero, to a
zero. Otherwise it is read as the number that it is rounded to, with all its bits. Zeros are read as
the zero with their sign, whatever the exponent. -/
theorem classifies_literals (hformat : f.format = .single ∨ f.format = .double)
    (hrest : here.rest stop = w ++ s) (hw : f.IsLiteral w s) :
    let behind := here.advance (Text.byteLength w)
    ∃ d y, IsNumeral w d ∧ (∀ z, f.format.Rounds d.negative d.magnitude z ↔ z = y) ∧
      (f.parser here stop = some (.failure behind .overflow) ↔
        y.isInfinite = true ∨ y.isZero = true ∧ d.magnitude ≠ 0) ∧
      (¬ (y.isInfinite = true ∨ y.isZero = true ∧ d.magnitude ≠ 0) →
        f.parser here stop = some (.success behind y) ∧ f.format.ofBits (f.format.bits y) = y) ∧
      ((∀ c ∈ mantissa w, Predicate.isDigit c = true → c = '0') →
        f.parser here stop = some (.success behind (f.format.zero (w.head? == some '-')))) := by
  have hproper := BinaryFormat.proper_of_eq hformat
  obtain ⟨d, hd⟩ := hw.exists_isNumeral
  have hrounds := BinaryFormat.rounds_ofDecimal hproper d
  have hparser := (hw.parser_eq hrest).trans (hw.number_eq hd hrest)
  have hrange : ¬ f.format.InRange d ↔ (f.format.ofDecimal d).isInfinite = true ∨
      (f.format.ofDecimal d).isZero = true ∧ d.magnitude ≠ 0 := by
    rw [BinaryFormat.not_inRange_iff, magnitude_ne_zero_iff]
  refine ⟨d, f.format.ofDecimal d, hd, fun z => ⟨fun hz => hz.unique hproper hrounds, ?_⟩, ?_,
    fun hin => ?_, fun hzero => ?_⟩
  · rintro rfl
    exact hrounds
  · rw [← hrange, hparser]
    by_cases hin : f.format.InRange d
    · rw [if_pos hin]
      exact iff_of_false nofun (not_not.2 hin)
    · rw [if_neg hin]
      exact iff_of_true rfl hin
  · rw [← hrange, not_not] at hin
    rw [hparser, if_pos hin]
    exact ⟨rfl, hrounds.ofBits_bits hproper⟩
  · obtain ⟨hin, heq⟩ := @BinaryFormat.inRange_of_zero f.format d (hd.significand_eq_zero hzero)
    rw [hparser, if_pos hin, heq, hd.negative_eq]

theorem liberal_ofFormat (format : BinaryFormat) : (ofFormat format).Liberal :=
  ⟨rfl, rfl, rfl, rfl, rfl⟩

/-- One with two thousand zeros is rounded to an infinity. -/
theorem classifies_huge : (ofFormat .double).IsLiteral ['1', 'e', '2', '0', '0', '0'] [] ∧
    (ofFormat .double).parser (start ['1', 'e', '2', '0', '0', '0'])
      (finish ['1', 'e', '2', '0', '0', '0']) =
        some (.failure (finish ['1', 'e', '2', '0', '0', '0']) .overflow) := by
  have hread : ofChars? ['1', 'e', '2', '0', '0', '0'] = some ⟨false, 1, 2000⟩ := by decide
  have hw := (liberal_ofFormat .double).isLiteral (ofChars?_eq_some_iff.1 hread)
    (show Ends [] from nofun)
  obtain ⟨d, y, hd, hy, hover, -⟩ :=
    classifies_literals (.inr rfl) (rest_start ['1', 'e', '2', '0', '0', '0']) hw
  obtain rfl := Option.some.inj ((ofChars?_eq_some_iff.2 hd).symm.trans hread)
  obtain rfl := (hy _).1 (.infinite (BinaryFormat.limit_le_magnitude one_ne_zero (by decide)))
  exact ⟨hw, hover.2 (.inl rfl)⟩

end RealFormat

end PegParsing
