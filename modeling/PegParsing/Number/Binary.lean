import PegParsing.Number.Decimal

/-!
# Binary floating point

A format has `precision` significant bits and `exponentBits` bits for the exponent. Its finite
numbers are `± significand * 2 ^ exponent` with `exponent` between `minExponent` and `maxExponent`
and the significand below `2 ^ precision`; a number above the least exponent has all its bits.
Numbers are read exactly and rounded once, to the nearest number of the format and at a tie to the
one with the even significand.
-/

namespace PegParsing

structure BinaryFormat where
  precision : Nat
  exponentBits : Nat
  deriving DecidableEq, Repr

/-- A number, an infinity, or no number. -/
inductive BinaryFloat where
  | nan
  | infinite (negative : Bool)
  | finite (negative : Bool) (significand : Nat) (exponent : Int)
  deriving DecidableEq, Repr

namespace BinaryFloat

def isInfinite : BinaryFloat → Bool
  | infinite _ => true
  | _ => false

/-- Either zero. -/
def isZero : BinaryFloat → Bool
  | finite _ significand _ => significand = 0
  | _ => false

end BinaryFloat

/-- The quotient rounded to the nearest integer, at a tie to the even one. -/
def divNearest (num den : Nat) : Nat :=
  let q := num / den
  let r := num % den
  if 2 * r < den ∨ (2 * r = den ∧ q % 2 = 0) then q else q + 1

/-- The rounded quotient is at most one half away. -/
theorem divNearest_bounds (num : Nat) {den : Nat} (h : 0 < den) :
    2 * num ≤ 2 * (den * divNearest num den) + den ∧
      2 * (den * divNearest num den) ≤ 2 * num + den := by
  have hdiv := Nat.div_add_mod num den
  have hmod := Nat.mod_lt num h
  unfold divNearest
  simp only
  split
  · omega
  · rw [Nat.mul_add, Nat.mul_one]
    omega

/-- The exponent of the greatest power of two that is not above a positive quotient. -/
def ratioLog2 (num den : Nat) : Int :=
  let k : Int := num.log2 - den.log2
  if num <<< (-k).toNat < den <<< k.toNat then k - 1 else k

namespace BinaryFormat

/-- 32 bits. -/
def single : BinaryFormat := ⟨24, 8⟩

/-- 64 bits. -/
def double : BinaryFormat := ⟨53, 11⟩

/-- The exponent of the least positive number, whose significand is one. -/
def minExponent (f : BinaryFormat) : Int := 3 - Nat.pow 2 (f.exponentBits - 1) - f.precision

/-- The exponent of the greatest number. -/
def maxExponent (f : BinaryFormat) : Int := Nat.pow 2 (f.exponentBits - 1) - f.precision

def zero (f : BinaryFormat) (negative : Bool) : BinaryFloat := .finite negative 0 f.minExponent

/-- The exponent at which a positive quotient is rounded. -/
def exponentFor (f : BinaryFormat) (num den : Nat) : Int :=
  max f.minExponent (ratioLog2 num den - (f.precision - 1))

/-- The number nearest to a positive quotient. A significand that rounding made one bit too long is
shortened. -/
def roundRatio (f : BinaryFormat) (negative : Bool) (num den : Nat) : BinaryFloat :=
  let e := f.exponentFor num den
  let m := divNearest (num <<< (-e).toNat) (den <<< e.toNat)
  let (m, e) := if m = 1 <<< f.precision then (1 <<< (f.precision - 1), e + 1) else (m, e)
  if f.maxExponent < e then .infinite negative else .finite negative m e

/-- The number nearest to a decimal. Exponents far outside the range are decided without computing
their powers: from `10 ^ k ≥ 2 ^ k` it follows that the number is above all finite numbers, or
below one half of the least. -/
def ofDecimal (f : BinaryFormat) (d : Decimal) : BinaryFloat :=
  if d.significand = 0 then f.zero d.negative
  else if f.maxExponent + f.precision < d.exponent then .infinite d.negative
  else if d.significand.log2 + 1 + d.exponent < f.minExponent then f.zero d.negative
  else f.roundRatio d.negative (d.significand * Nat.pow 10 d.exponent.toNat)
    (Nat.pow 10 (-d.exponent).toNat)

/-- The bits of a number: sign, exponent and significand without its leading bit. -/
def bits (f : BinaryFormat) : BinaryFloat → Nat
  | .nan => (1 <<< (f.exponentBits + 1) - 1) <<< (f.precision - 2)
  | .infinite negative => signBit negative + (1 <<< f.exponentBits - 1) <<< (f.precision - 1)
  | .finite negative m e =>
    signBit negative + (e - f.minExponent).toNat <<< (f.precision - 1) + m
where
  signBit (negative : Bool) : Nat :=
    if negative then 1 <<< (f.precision + f.exponentBits - 1) else 0

end BinaryFormat

end PegParsing
