import Mathlib.Algebra.Order.Field.Power
import Mathlib.Data.Rat.Cast.Order
import Mathlib.Tactic.Linarith
import Mathlib.Tactic.Positivity
import Mathlib.Tactic.Ring
import PegParsing.Number.Binary

/-!
# Rounding to the nearest number

`BinaryFormat.Rounds` says what an exact number is rounded to in a binary format: to the nearest number
of the format, of two numbers that are equally near to the one with the even significand, and to an
infinity from one half of a last place above the greatest number on. There is one such number and no
other (`Rounds.unique`), and it is the one that is found for a decimal (`rounds_ofDecimal`), be it at
once, if its exponent is far out of range, or by rounding a quotient (`rounds_roundRatio`).

A quotient is rounded to a whole number of units `2 ^ e`. Numbers with a greater exponent are whole
numbers of these units too, and all numbers with a lesser one lie below the quotient and below a number
with the exponent `e` (`Fits.nearest`).
-/

namespace PegParsing

/-- The absolute value of a decimal. -/
def Decimal.magnitude (d : Decimal) : ℚ := d.significand * 10 ^ d.exponent

/-- The value of a significand and an exponent in a binary format. -/
def scaled (m : Nat) (e : Int) : ℚ := m * 2 ^ e

theorem scaled_add (m : Nat) (e : Int) (k : Nat) : scaled m (e + k) = scaled (m * 2 ^ k) e := by
  unfold scaled
  rw [zpow_add₀ two_ne_zero, zpow_natCast, Nat.cast_mul, Nat.cast_pow, Nat.cast_two]
  ring

theorem scaled_le_scaled {m n : Nat} {e : Int} : scaled m e ≤ scaled n e ↔ m ≤ n := by
  unfold scaled
  rw [mul_le_mul_iff_left₀ (by positivity), Nat.cast_le]

theorem scaled_lt_scaled {m n : Nat} {e : Int} : scaled m e < scaled n e ↔ m < n := by
  unfold scaled
  rw [mul_lt_mul_iff_left₀ (by positivity), Nat.cast_lt]

theorem scaled_two_pow (k : Nat) (e : Int) : scaled (2 ^ k) e = 2 ^ (k + e) := by
  unfold scaled
  rw [Nat.cast_pow, Nat.cast_two, zpow_add₀ two_ne_zero, zpow_natCast]

/-! ## The nearest whole number -/

/-- The whole number nearest to `s`, at a tie the even one. -/
structure IsNearestNat (s : ℚ) (m : Nat) : Prop where
  le_half : |s - m| ≤ 1 / 2
  even : |s - m| = 1 / 2 → Even m

namespace IsNearestNat

variable {s : ℚ} {m n : Nat}

theorem half_le (h : IsNearestNat s m) (hne : n ≠ m) : 1 / 2 ≤ |s - n| := by
  have hone : (1 : ℚ) ≤ |(m : ℚ) - n| := by
    have hint : (1 : ℤ) ≤ |(m : ℤ) - n| := Int.one_le_abs (by omega)
    exact_mod_cast hint
  have htri := abs_sub_le (m : ℚ) s n
  rw [abs_sub_comm (m : ℚ) s] at htri
  linarith [h.le_half]

theorem le (h : IsNearestNat s m) (n : Nat) : |s - m| ≤ |s - n| := by
  by_cases hne : n = m
  · rw [hne]
  · exact h.le_half.trans (h.half_le hne)

theorem even_of_eq (h : IsNearestNat s m) (hne : n ≠ m) (heq : |s - n| = |s - m|) : Even m :=
  h.even (le_antisymm h.le_half (heq ▸ h.half_le hne))

theorem le_of_le (h : IsNearestNat s m) (hn : (n : ℚ) ≤ s) : n ≤ m := by
  by_contra hlt
  have hcast : (m : ℚ) + 1 ≤ n := by exact_mod_cast Nat.lt_of_not_le hlt
  linarith [(abs_le.1 h.le_half).2]

theorem le_of_ge (h : IsNearestNat s m) (hn : s ≤ n) : m ≤ n := by
  by_contra hlt
  have hcast : (n : ℚ) + 1 ≤ m := by exact_mod_cast Nat.lt_of_not_le hlt
  linarith [(abs_le.1 h.le_half).1]

/-- Below an even number, it is that number from one half before it on. -/
theorem eq_iff (h : IsNearestNat s m) (hs : s < n) (hn : Even n) : m = n ↔ (n : ℚ) - 1 / 2 ≤ s := by
  constructor
  · rintro rfl
    linarith [(abs_le.1 h.le_half).1]
  · intro hle
    by_contra hne
    -- the number below would be one half away as well, and odd
    have hlt : (m : ℚ) + 1 ≤ n := by exact_mod_cast (h.le_of_ge hs.le).lt_of_ne hne
    have hdist : |s - m| = s - m := abs_of_nonneg (by linarith)
    have heven := h.even (le_antisymm h.le_half (by linarith))
    have hsucc : m + 1 = n := by
      have hcast : (m : ℚ) + 1 = n := by linarith [(abs_le.1 h.le_half).2]
      exact_mod_cast hcast
    rw [← hsucc, Nat.even_add_one] at hn
    exact hn heven

end IsNearestNat

/-- At a tie the quotient is rounded to an even number. -/
theorem even_divNearest {num den : Nat} (h : 0 < den)
    (htie : 2 * num = 2 * (den * divNearest num den) + den ∨
      2 * (den * divNearest num den) = 2 * num + den) : Even (divNearest num den) := by
  have hdiv := Nat.div_add_mod num den
  have hmod := Nat.mod_lt num h
  rw [Nat.even_iff]
  unfold divNearest at htie ⊢
  simp only at htie ⊢
  split at htie
  · rename_i hdown
    rw [if_pos hdown]
    omega
  · rename_i hup
    rw [if_neg hup]
    rw [Nat.mul_add, Nat.mul_one] at htie
    omega

theorem isNearestNat_divNearest (num : Nat) {den : Nat} (h : 0 < den) :
    IsNearestNat (num / den) (divNearest num den) := by
  obtain ⟨hlow, hhigh⟩ := divNearest_bounds num h
  have htie := @even_divNearest num den h
  generalize divNearest num den = m at hlow hhigh htie ⊢
  have hden : (0 : ℚ) < den := Nat.cast_pos.2 h
  have hlow' : (2 * num : ℚ) ≤ 2 * (den * m) + den := by exact_mod_cast hlow
  have hhigh' : (2 * (den * m) : ℚ) ≤ 2 * num + den := by exact_mod_cast hhigh
  have hle : (num / den : ℚ) ≤ m + 1 / 2 := (div_le_iff₀ hden).2 (by linarith)
  have hge : (m - 1 / 2 : ℚ) ≤ num / den := (le_div_iff₀ hden).2 (by linarith)
  refine ⟨abs_le.2 ⟨by linarith, by linarith⟩, fun hhalf => htie ?_⟩
  rcases (abs_eq one_half_pos.le).1 hhalf with heq | heq
  · have hnum := (div_eq_iff hden.ne').1 (show (num / den : ℚ) = m + 1 / 2 by linarith)
    have hcast : (2 * num : ℚ) = 2 * (den * m) + den := by linarith
    exact .inl (by exact_mod_cast hcast)
  · have hnum := (div_eq_iff hden.ne').1 (show (num / den : ℚ) = m - 1 / 2 by linarith)
    have hcast : (2 * (den * m) : ℚ) = 2 * num + den := by linarith
    exact .inr (by exact_mod_cast hcast)

/-! ## Shifted quotients -/

/-- Shifting by an exponent is the same as dividing by its power. -/
theorem shift_div (num den : Nat) (e : Int) :
    ((num <<< (-e).toNat : Nat) : ℚ) / (den <<< e.toNat : Nat) = num / den / 2 ^ e := by
  rw [Nat.shiftLeft_eq, Nat.shiftLeft_eq, Nat.cast_mul, Nat.cast_mul, Nat.cast_pow, Nat.cast_pow,
    Nat.cast_two, mul_div_mul_comm, div_eq_mul_inv _ ((2 : ℚ) ^ e), ← zpow_natCast, ← zpow_natCast,
    ← zpow_sub₀ two_ne_zero, ← zpow_neg]
  congr 2
  omega

theorem shiftLeft_pos {n : Nat} (h : 0 < n) (k : Nat) : 0 < n <<< k := by
  rw [Nat.shiftLeft_eq]
  exact Nat.mul_pos h (Nat.two_pow_pos k)

theorem shift_lt_shift {num den : Nat} (hden : 0 < den) (e : Int) :
    num <<< (-e).toNat < den <<< e.toNat ↔ (num / den : ℚ) < 2 ^ e := by
  have hpos : (0 : ℚ) < (den <<< e.toNat : Nat) := Nat.cast_pos.2 (shiftLeft_pos hden _)
  rw [← @Nat.cast_lt ℚ, ← div_lt_one hpos, shift_div, div_lt_one (by positivity)]

/-- A quotient lies between the power of two that is found for it and the next one. -/
theorem ratioLog2_spec {num den : Nat} (hnum : 0 < num) (hden : 0 < den) :
    (2 : ℚ) ^ ratioLog2 num den ≤ num / den ∧ (num / den : ℚ) < 2 ^ (ratioLog2 num den + 1) := by
  have hden' : (0 : ℚ) < den := Nat.cast_pos.2 hden
  have hbelow : (2 : ℚ) ^ ((num.log2 : Int) - den.log2 - 1) ≤ num / den := by
    have hle : (2 : ℚ) ^ num.log2 ≤ num := by exact_mod_cast Nat.log2_self_le hnum.ne'
    have hlt : (den : ℚ) ≤ 2 ^ (den.log2 + 1) := by exact_mod_cast Nat.lt_log2_self.le
    rw [sub_sub, zpow_sub₀ two_ne_zero]
    exact div_le_div₀ (Nat.cast_nonneg _) hle hden' hlt
  have habove : (num / den : ℚ) < 2 ^ ((num.log2 : Int) - den.log2 + 1) := by
    have hlt : (num : ℚ) < 2 ^ (num.log2 + 1) := by exact_mod_cast Nat.lt_log2_self
    have hle : (2 : ℚ) ^ den.log2 ≤ den := by exact_mod_cast Nat.log2_self_le hden.ne'
    rw [sub_add_eq_add_sub, zpow_sub₀ two_ne_zero]
    exact div_lt_div₀ hlt hle (by positivity) (by positivity)
  unfold ratioLog2
  simp only [shift_lt_shift hden]
  split
  · rename_i hlt
    rw [sub_add_cancel]
    exact ⟨hbelow, hlt⟩
  · rename_i hle
    exact ⟨not_lt.1 hle, habove⟩

theorem abs_sub_scaled (x : ℚ) (m : Nat) (e : Int) :
    |x - scaled m e| = |x / 2 ^ e - m| * 2 ^ e := by
  have hpos : (0 : ℚ) < 2 ^ e := by positivity
  rw [← abs_of_pos hpos, ← abs_mul, abs_of_pos hpos, sub_mul, div_mul_cancel₀ _ hpos.ne']
  rfl

/-! ## Numbers of a format -/

namespace BinaryFormat

/-- There are at least two bits for the significand, and two for the exponent. -/
structure Proper (f : BinaryFormat) : Prop where
  precision : 2 ≤ f.precision
  exponentBits : 2 ≤ f.exponentBits

/-- The significands and exponents of the format. Above the least exponent a number has all its bits. -/
structure IsNumber (f : BinaryFormat) (m : Nat) (e : Int) : Prop where
  lt : m < 2 ^ f.precision
  ge : f.minExponent ≤ e
  le : e ≤ f.maxExponent
  full : e = f.minExponent ∨ 2 ^ (f.precision - 1) ≤ m

/-- No number of the format is nearer to `x`, and none is as near unless the significand is even. -/
structure Nearest (f : BinaryFormat) (x : ℚ) (m : Nat) (e : Int) : Prop where
  isNumber : f.IsNumber m e
  le : ∀ {n k}, f.IsNumber n k → |x - scaled m e| ≤ |x - scaled n k|
  even : ∀ {n k}, f.IsNumber n k → scaled n k ≠ scaled m e →
    |x - scaled n k| = |x - scaled m e| → Even m

/-- One half of a last place above the greatest significand at an exponent. -/
def halfway (f : BinaryFormat) (e : Int) : ℚ := (2 ^ f.precision - 1 / 2) * 2 ^ e

/-- One half of a last place above the greatest number. -/
def limit (f : BinaryFormat) : ℚ := f.halfway f.maxExponent

/-- What the number with the absolute value `x` is rounded to. -/
inductive Rounds (f : BinaryFormat) (negative : Bool) (x : ℚ) : BinaryFloat → Prop
  | finite {m : Nat} {e : Int} : x < f.limit → f.Nearest x m e →
      Rounds f negative x (.finite negative m e)
  | infinite : f.limit ≤ x → Rounds f negative x (.infinite negative)

variable {f : BinaryFormat} {m n : Nat} {e k : Int} {x : ℚ}

theorem Proper.two_pow (h : f.Proper) : 2 ^ f.precision = 2 ^ (f.precision - 1) * 2 :=
  (Nat.two_pow_pred_mul_two (Nat.zero_lt_of_lt h.precision)).symm

theorem Proper.even_two_pow (h : f.Proper) : Even (2 ^ f.precision) :=
  Nat.even_pow.2 ⟨even_two, (Nat.zero_lt_of_lt h.precision).ne'⟩

theorem Proper.two_le_pow (h : f.Proper) : 2 ≤ Nat.pow 2 (f.exponentBits - 1) :=
  Nat.le_self_pow (Nat.sub_ne_zero_of_lt h.exponentBits) 2

theorem Proper.minExponent_le (h : f.Proper) : f.minExponent ≤ f.maxExponent := by
  have hpow := h.two_le_pow
  unfold minExponent maxExponent
  omega

theorem Proper.minExponent_neg (h : f.Proper) : f.minExponent < 0 := by
  have hpow := h.two_le_pow
  have hprecision := h.precision
  unfold minExponent
  omega

/-- A number is a whole multiple of the units of every lesser exponent. -/
theorem exists_scaled_eq (n : Nat) (h : e ≤ k) : ∃ j, scaled n k = scaled j e := by
  obtain ⟨i, rfl⟩ := Int.le.dest h
  exact ⟨_, scaled_add n e i⟩

/-- One bit too many is no more than all bits at any greater exponent. -/
theorem scaled_le_of_lt (hf : f.Proper) (h : k < e) :
    scaled (2 ^ f.precision) k ≤ scaled (2 ^ (f.precision - 1)) e := by
  obtain ⟨i, rfl⟩ := Int.le.dest (Int.add_one_le_of_lt h)
  rw [add_assoc, add_comm (1 : Int), ← Nat.cast_succ, scaled_add, scaled_le_scaled, Nat.pow_succ,
    mul_comm (2 ^ i), ← mul_assoc, ← hf.two_pow]
  exact Nat.le_mul_of_pos_right _ (Nat.two_pow_pos i)

/-- The numbers with a lesser exponent lie below those that have all bits. -/
theorem IsNumber.lt_of_exponent_lt (hf : f.Proper) (h : f.IsNumber n k) (hlt : k < e) :
    scaled n k < scaled (2 ^ (f.precision - 1)) e :=
  (scaled_lt_scaled.2 h.lt).trans_le (scaled_le_of_lt hf hlt)

theorem halfway_mono (f : BinaryFormat) (h : e ≤ k) : f.halfway e ≤ f.halfway k := by
  have hone : (1 : ℚ) ≤ 2 ^ f.precision := one_le_pow₀ one_le_two
  exact mul_le_mul_of_nonneg_left (zpow_le_zpow_right₀ one_le_two h) (by linarith)

theorem halfway_le_scaled (f : BinaryFormat) (e : Int) : f.halfway e ≤ scaled (2 ^ f.precision) e := by
  unfold halfway scaled
  rw [Nat.cast_pow, Nat.cast_two]
  exact mul_le_mul_of_nonneg_right (by linarith) (by positivity)

theorem scaled_le_halfway (hf : f.Proper) (e : Int) :
    scaled (2 ^ (f.precision - 1)) e ≤ f.halfway e := by
  have hpow : (2 : ℚ) ^ f.precision = 2 ^ (f.precision - 1) * 2 := by exact_mod_cast hf.two_pow
  have hone : (1 : ℚ) ≤ 2 ^ (f.precision - 1) := one_le_pow₀ one_le_two
  unfold halfway scaled
  rw [Nat.cast_pow, Nat.cast_two, hpow]
  exact mul_le_mul_of_nonneg_right (by linarith) (by positivity)

/-! ## One nearest number -/

/-- Of two numbers the one with the greater exponent is the greater one. -/
theorem IsNumber.lt_of_lt (hf : f.Proper) (hm : f.IsNumber m e) (hn : f.IsNumber n k) (h : e < k) :
    scaled m e < scaled n k := by
  have hfull := hn.full.resolve_left (hm.ge.trans_lt h).ne'
  exact (hm.lt_of_exponent_lt hf h).trans_le (scaled_le_scaled.2 hfull)

/-- A value has one significand and exponent. -/
theorem IsNumber.unique (hf : f.Proper) (hm : f.IsNumber m e) (hn : f.IsNumber n k)
    (h : scaled m e = scaled n k) : m = n ∧ e = k := by
  rcases lt_trichotomy e k with hlt | rfl | hlt
  · exact absurd h (hm.lt_of_lt hf hn hlt).ne
  · exact ⟨le_antisymm (scaled_le_scaled.1 h.le) (scaled_le_scaled.1 h.ge), rfl⟩
  · exact absurd h (hn.lt_of_lt hf hm hlt).ne'

/-- Between a number and the next significand at its exponent there is no other number. -/
theorem IsNumber.succ_le (hf : f.Proper) (hm : f.IsNumber m e) (hn : f.IsNumber n k)
    (h : scaled m e < scaled n k) : scaled (m + 1) e ≤ scaled n k := by
  rcases lt_or_ge k e with hlt | hge
  · exact absurd h (hn.lt_of_lt hf hm hlt).not_gt
  · obtain ⟨j, hj⟩ := exists_scaled_eq n hge
    rw [hj] at h ⊢
    exact scaled_le_scaled.2 (scaled_lt_scaled.1 h)

/-- Behind an even significand there is another one at the same exponent. -/
theorem IsNumber.succ (hf : f.Proper) (hm : f.IsNumber m e) (heven : Even m) :
    f.IsNumber (m + 1) e where
  lt := by
    refine lt_of_le_of_ne hm.lt fun heq => ?_
    have hpow := hf.even_two_pow
    rw [← heq, Nat.even_add_one] at hpow
    exact hpow heven
  ge := hm.ge
  le := hm.le
  full := hm.full.imp_right fun hfull => hfull.trans (Nat.le_succ m)

/-- Two nearest numbers would both be even, and the number between them nearer. -/
theorem Nearest.not_scaled_lt (hf : f.Proper) (hm : f.Nearest x m e) (hn : f.Nearest x n k) :
    ¬ scaled m e < scaled n k := by
  intro hlt
  have hdist := le_antisymm (hm.le hn.isNumber) (hn.le hm.isNumber)
  have heven := hm.even hn.isNumber hlt.ne' hdist.symm
  have hsucc := hm.isNumber.succ hf heven
  have hbetween : scaled m e < scaled (m + 1) e := scaled_lt_scaled.2 (Nat.lt_succ_self m)
  have hmid : x - scaled m e = scaled n k - x := by
    rcases abs_eq_abs.1 hdist with heq | heq <;> linarith
  rcases (hm.isNumber.succ_le hf hn.isNumber hlt).lt_or_eq with hbelow | heq
  · have hcloser : |x - scaled (m + 1) e| < x - scaled m e :=
      abs_lt.2 ⟨by linarith, by linarith⟩
    exact absurd (hm.le hsucc) (not_le.2 (hcloser.trans_le (le_abs_self _)))
  · obtain ⟨rfl, rfl⟩ := hsucc.unique hf hn.isNumber heq
    have hodd := hn.even hm.isNumber hlt.ne hdist
    rw [Nat.even_add_one] at hodd
    exact hodd heven

theorem Nearest.unique (hf : f.Proper) (hm : f.Nearest x m e) (hn : f.Nearest x n k) :
    m = n ∧ e = k :=
  hm.isNumber.unique hf hn.isNumber (le_antisymm (not_lt.1 (hn.not_scaled_lt hf hm))
    (not_lt.1 (hm.not_scaled_lt hf hn)))

/-- What a number is rounded to is determined. -/
theorem Rounds.unique (hf : f.Proper) {negative : Bool} {y z : BinaryFloat}
    (hy : f.Rounds negative x y) (hz : f.Rounds negative x z) : y = z := by
  cases hy with
  | infinite hle =>
    cases hz with
    | infinite => rfl
    | finite hlt => exact absurd hle hlt.not_ge
  | finite hlt hm =>
    cases hz with
    | infinite hle => exact absurd hle hlt.not_ge
    | finite _ hn =>
      obtain ⟨rfl, rfl⟩ := hm.unique hf hn
      rfl

/-! ## The units of a quotient -/

/-- `x` is to be rounded to units `2 ^ e`. -/
structure Fits (f : BinaryFormat) (x : ℚ) (e : Int) : Prop where
  ge : f.minExponent ≤ e
  full : e = f.minExponent ∨ scaled (2 ^ (f.precision - 1)) e ≤ x
  lt : x < scaled (2 ^ f.precision) e

/-- The nearest whole number of units is nearest among all numbers of the format. -/
theorem Fits.nearest (hf : f.Proper) (h : f.Fits x e) (hm : IsNearestNat (x / 2 ^ e) m)
    (hn : f.IsNumber n k) : |x - scaled m e| ≤ |x - scaled n k| ∧
      (scaled n k ≠ scaled m e → |x - scaled n k| = |x - scaled m e| → Even m) := by
  have hunits : ∀ j, |x - scaled m e| ≤ |x - scaled j e| := by
    intro j
    rw [abs_sub_scaled, abs_sub_scaled]
    exact mul_le_mul_of_nonneg_right (hm.le j) (by positivity)
  rcases lt_or_ge k e with hlt | hge
  · -- the number lies below another one with the exponent of `x`, which is nearer
    have hfull := h.full.resolve_left (hn.ge.trans_lt hlt).ne'
    have hbelow := hn.lt_of_exponent_lt hf hlt
    have hcloser : |x - scaled m e| < |x - scaled n k| := by
      refine (hunits (2 ^ (f.precision - 1))).trans_lt ?_
      rw [abs_of_nonneg (sub_nonneg.2 hfull), abs_of_pos (sub_pos.2 (hbelow.trans_le hfull))]
      exact sub_lt_sub_left hbelow x
    exact ⟨hcloser.le, fun _ heq => absurd heq hcloser.ne'⟩
  · obtain ⟨j, hj⟩ := exists_scaled_eq n hge
    rw [hj]
    refine ⟨hunits j, fun hne heq => ?_⟩
    rw [abs_sub_scaled, abs_sub_scaled] at heq
    exact hm.even_of_eq (fun hjm => hne (by rw [hjm])) (mul_right_cancel₀ (by positivity) heq)

/-- The same value may have another significand and exponent, with one bit less. -/
theorem Fits.nearest_of_eq (hf : f.Proper) (h : f.Fits x e) (hm : IsNearestNat (x / 2 ^ e) m)
    (hn : f.IsNumber n k) (hvalue : scaled n k = scaled m e) (heven : Even m → Even n) :
    f.Nearest x n k where
  isNumber := hn
  le := by
    intro i j hi
    rw [hvalue]
    exact (h.nearest hf hm hi).1
  even := by
    intro i j hi
    rw [hvalue]
    exact fun hne heq => heven ((h.nearest hf hm hi).2 hne heq)

/-- The number with a significand and an exponent, if the exponent is not too great. -/
def place (f : BinaryFormat) (negative : Bool) (m : Nat) (e : Int) : BinaryFloat :=
  if f.maxExponent < e then .infinite negative else .finite negative m e

theorem rounds_place {negative : Bool} (hover : f.maxExponent < e → f.limit ≤ x)
    (hfinite : e ≤ f.maxExponent → x < f.limit ∧ f.Nearest x m e) :
    f.Rounds negative x (f.place negative m e) := by
  unfold place
  split
  · rename_i he
    exact .infinite (hover he)
  · rename_i he
    obtain ⟨hlt, hnearest⟩ := hfinite (not_lt.1 he)
    exact .finite hlt hnearest

section Place

variable (hf : f.Proper) (h : f.Fits x e) (hm : IsNearestNat (x / 2 ^ e) m) {negative : Bool}

include hf h hm

/-- Rounding makes the significand one bit too long from one half below it on. -/
theorem Fits.long_iff : m = 2 ^ f.precision ↔ f.halfway e ≤ x := by
  have hpos : (0 : ℚ) < 2 ^ e := by positivity
  rw [hm.eq_iff ((div_lt_iff₀ hpos).2 h.lt) hf.even_two_pow, le_div_iff₀ hpos, Nat.cast_pow,
    Nat.cast_two]
  rfl

/-- A significand that rounding made one bit too long is shortened. -/
theorem Fits.rounds_of_long (hlong : m = 2 ^ f.precision) :
    f.Rounds negative x (f.place negative (2 ^ (f.precision - 1)) (e + 1)) := by
  have hvalue : scaled (2 ^ (f.precision - 1)) (e + 1) = scaled m e := by
    rw [hlong, hf.two_pow]
    exact scaled_add _ e 1
  have heven : Even (2 ^ (f.precision - 1)) :=
    Nat.even_pow.2 ⟨even_two, Nat.sub_ne_zero_of_lt hf.precision⟩
  have hlt : 2 ^ (f.precision - 1) < 2 ^ f.precision :=
    Nat.two_pow_pred_lt_two_pow (Nat.zero_lt_of_lt hf.precision)
  refine rounds_place (fun hover => ?_) fun hle => ⟨?_, ?_⟩
  · exact (f.halfway_mono (Int.le_of_lt_add_one hover)).trans ((h.long_iff hf hm).1 hlong)
  · calc x < scaled (2 ^ f.precision) e := h.lt
      _ = scaled (2 ^ (f.precision - 1)) (e + 1) := by rw [hvalue, hlong]
      _ ≤ f.halfway (e + 1) := scaled_le_halfway hf _
      _ ≤ f.limit := f.halfway_mono hle
  · exact h.nearest_of_eq hf hm ⟨hlt, h.ge.trans (Int.le_add_one le_rfl), hle, .inr le_rfl⟩ hvalue
      fun _ => heven

/-- A significand that fits, be it with all bits or at the least exponent. -/
theorem Fits.rounds_of_short (hshort : m ≠ 2 ^ f.precision) :
    f.Rounds negative x (f.place negative m e) := by
  have hpos : (0 : ℚ) < 2 ^ e := by positivity
  refine rounds_place (fun hover => ?_) fun hle => ⟨?_, ?_⟩
  · have hfull := h.full.resolve_left (hf.minExponent_le.trans_lt hover).ne'
    calc f.limit ≤ scaled (2 ^ f.precision) f.maxExponent := f.halfway_le_scaled _
      _ ≤ scaled (2 ^ (f.precision - 1)) e := scaled_le_of_lt hf hover
      _ ≤ x := hfull
  · exact (lt_of_not_ge (mt (h.long_iff hf hm).2 hshort)).trans_le (f.halfway_mono hle)
  · have hbits : m ≤ 2 ^ f.precision := hm.le_of_ge ((div_le_iff₀ hpos).2 h.lt.le)
    have hfull : e = f.minExponent ∨ 2 ^ (f.precision - 1) ≤ m :=
      h.full.imp_right fun hfull => hm.le_of_le ((le_div_iff₀ hpos).2 hfull)
    exact h.nearest_of_eq hf hm ⟨hbits.lt_of_ne hshort, h.ge, hle, hfull⟩ rfl id

end Place

/-! ## Rounding a quotient -/

theorem roundRatio_eq (f : BinaryFormat) (negative : Bool) (num den : Nat) :
    f.roundRatio negative num den =
      let e := f.exponentFor num den
      let m := divNearest (num <<< (-e).toNat) (den <<< e.toNat)
      if m = 2 ^ f.precision then f.place negative (2 ^ (f.precision - 1)) (e + 1)
      else f.place negative m e := by
  unfold roundRatio
  simp only [Nat.one_shiftLeft]
  split <;> rfl

theorem fits_exponentFor (hf : f.Proper) {num den : Nat} (hnum : 0 < num) (hden : 0 < den) :
    f.Fits (num / den) (f.exponentFor num den) := by
  obtain ⟨hle, hlt⟩ := ratioLog2_spec hnum hden
  have hprecision : ((f.precision - 1 : Nat) : Int) = f.precision - 1 :=
    Nat.cast_pred (Nat.zero_lt_of_lt hf.precision)
  refine ⟨le_max_left _ _, ?_, ?_⟩
  · refine (max_choice f.minExponent (ratioLog2 num den - (f.precision - 1))).imp id fun hmax => ?_
    unfold exponentFor
    rw [hmax, scaled_two_pow, hprecision, add_sub_cancel]
    exact hle
  · refine hlt.trans_le ?_
    have hmax : ratioLog2 num den - (f.precision - 1) ≤ f.exponentFor num den := le_max_right _ _
    rw [scaled_two_pow]
    exact zpow_le_zpow_right₀ one_le_two (by omega)

theorem rounds_roundRatio (hf : f.Proper) (negative : Bool) {num den : Nat} (hnum : 0 < num)
    (hden : 0 < den) : f.Rounds negative (num / den) (f.roundRatio negative num den) := by
  have hfits := fits_exponentFor hf hnum hden
  have hm := isNearestNat_divNearest (num <<< (-f.exponentFor num den).toNat)
    (shiftLeft_pos hden (f.exponentFor num den).toNat)
  rw [shift_div] at hm
  rw [roundRatio_eq]
  simp only
  split
  · rename_i hlong
    exact hfits.rounds_of_long hf hm hlong
  · rename_i hshort
    exact hfits.rounds_of_short hf hm hshort

/-! ## Rounding a decimal -/

/-- What is less than one half of the least positive number is rounded to zero. -/
theorem rounds_zero (hf : f.Proper) (negative : Bool) (hx : 0 ≤ x)
    (hlt : x < 2 ^ (f.minExponent - 1)) : f.Rounds negative x (f.zero negative) := by
  have hpos : (0 : ℚ) < 2 ^ f.minExponent := by positivity
  have hhalf : x / 2 ^ f.minExponent < 1 / 2 := by
    rw [div_lt_iff₀ hpos, one_div, mul_comm, ← zpow_sub_one₀ two_ne_zero]
    exact hlt
  have hdist : |x / 2 ^ f.minExponent - (0 : Nat)| < 1 / 2 := by
    rw [Nat.cast_zero, sub_zero, abs_of_nonneg (div_nonneg hx hpos.le)]
    exact hhalf
  have hzero : IsNearestNat (x / 2 ^ f.minExponent) 0 :=
    ⟨hdist.le, fun heq => absurd heq hdist.ne⟩
  have hfits : f.Fits x f.minExponent := by
    refine ⟨le_rfl, .inl rfl, hlt.trans_le ?_⟩
    rw [scaled_two_pow]
    exact zpow_le_zpow_right₀ one_le_two (by omega)
  have hrounds := @Fits.rounds_of_short _ _ _ _ hf hfits hzero negative
    (Nat.two_pow_pos f.precision).ne
  unfold place at hrounds
  rwa [if_neg (not_lt.2 hf.minExponent_le)] at hrounds

/-- From `10 ^ k ≥ 2 ^ k` a decimal with a great exponent is above all finite numbers. -/
theorem limit_le_magnitude {d : Decimal} (hne : d.significand ≠ 0)
    (h : f.maxExponent + f.precision < d.exponent) : f.limit ≤ d.magnitude := by
  have hexponent : 0 ≤ d.exponent := by
    unfold maxExponent at h
    omega
  have hone : (1 : ℚ) ≤ d.significand := by exact_mod_cast Nat.one_le_iff_ne_zero.2 hne
  calc f.limit ≤ scaled (2 ^ f.precision) f.maxExponent := f.halfway_le_scaled _
    _ = 2 ^ (f.precision + f.maxExponent) := scaled_two_pow _ _
    _ ≤ 2 ^ d.exponent := zpow_le_zpow_right₀ one_le_two (by omega)
    _ ≤ 10 ^ d.exponent := zpow_le_zpow_left₀ hexponent two_pos.le (by norm_num)
    _ ≤ d.significand * 10 ^ d.exponent := le_mul_of_one_le_left (by positivity) hone

/-- From `10 ^ k ≥ 2 ^ k` a decimal with a small exponent is below one half of the least positive
number. -/
theorem magnitude_lt (hf : f.Proper) {d : Decimal}
    (h : d.significand.log2 + 1 + d.exponent < f.minExponent) :
    d.magnitude < 2 ^ (f.minExponent - 1) := by
  have hexponent : 0 ≤ -d.exponent := by
    have hmin := hf.minExponent_neg
    omega
  have hpow : (10 : ℚ) ^ d.exponent ≤ 2 ^ d.exponent := by
    have hle : (2 : ℚ) ^ (-d.exponent) ≤ 10 ^ (-d.exponent) :=
      zpow_le_zpow_left₀ hexponent two_pos.le (by norm_num)
    rw [zpow_neg, zpow_neg] at hle
    exact (inv_le_inv₀ (by positivity) (by positivity)).1 hle
  have hlog : (d.significand : ℚ) < 2 ^ (d.significand.log2 + 1) := by
    exact_mod_cast Nat.lt_log2_self
  calc d.magnitude ≤ d.significand * 2 ^ d.exponent :=
        mul_le_mul_of_nonneg_left hpow (Nat.cast_nonneg _)
    _ < 2 ^ (d.significand.log2 + 1) * 2 ^ d.exponent :=
        mul_lt_mul_of_pos_right hlog (by positivity)
    _ = 2 ^ (d.significand.log2 + 1 + d.exponent) := by
        rw [zpow_add₀ two_ne_zero]
        rfl
    _ ≤ 2 ^ (f.minExponent - 1) := zpow_le_zpow_right₀ one_le_two (by omega)

/-- A decimal as the quotient of two whole numbers. -/
theorem decimal_div (d : Decimal) : ((d.significand * Nat.pow 10 d.exponent.toNat : Nat) : ℚ) /
    (Nat.pow 10 (-d.exponent).toNat : Nat) = d.magnitude := by
  unfold Decimal.magnitude
  rw [Nat.cast_mul, mul_div_assoc, Nat.pow_eq, Nat.pow_eq, Nat.cast_pow, Nat.cast_pow,
    ← zpow_natCast, ← zpow_natCast, ← zpow_sub₀ (by norm_num)]
  congr 2
  omega

/-- A decimal is rounded once and exactly. -/
theorem rounds_ofDecimal (hf : f.Proper) (d : Decimal) :
    f.Rounds d.negative d.magnitude (f.ofDecimal d) := by
  have hmagnitude : 0 ≤ d.magnitude := mul_nonneg (Nat.cast_nonneg _) (by positivity)
  unfold ofDecimal
  split
  · rename_i hzero
    refine rounds_zero hf d.negative hmagnitude ?_
    unfold Decimal.magnitude
    rw [hzero, Nat.cast_zero, zero_mul]
    positivity
  rename_i hne
  split
  · rename_i hlarge
    exact .infinite (limit_le_magnitude hne hlarge)
  split
  · rename_i hsmall
    exact rounds_zero hf d.negative hmagnitude (magnitude_lt hf hsmall)
  · rw [← decimal_div]
    have hpow : ∀ n, 0 < Nat.pow 10 n := fun n => Nat.pow_pos (by decide)
    exact rounds_roundRatio hf d.negative (Nat.mul_pos (Nat.pos_of_ne_zero hne) (hpow _)) (hpow _)

end BinaryFormat

end PegParsing
