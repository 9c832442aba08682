import PegParsing.BuildError

/-!
# Digits in any base

Bases run from 2 to 36; the digits above nine are letters in either case. `value_append` is the law
of positional notation.
-/

namespace PegParsing

/-- The value of a digit. -/
def digitValue? (c : Char) : Option Nat :=
  if '0' ≤ c ∧ c ≤ '9' then some (c.toNat - '0'.toNat)
  else if 'a' ≤ c ∧ c ≤ 'z' then some (c.toNat - 'a'.toNat + 10)
  else if 'A' ≤ c ∧ c ≤ 'Z' then some (c.toNat - 'A'.toNat + 10)
  else none

structure Radix where
  base : Nat
  two_le : 2 ≤ base
  le_max : base ≤ 36

namespace Radix

def decimal : Radix := ⟨10, by decide, by decide⟩

def ofNat (n : Nat) : Except BuildError Radix :=
  if h : 2 ≤ n ∧ n ≤ 36 then .ok ⟨n, h.1, h.2⟩ else .error (.unsupportedRadix n)

def isDigit (r : Radix) (c : Char) : Bool := (digitValue? c).any (· < r.base)

/-- Appends the digit `c` to the number `n`. -/
def shift (r : Radix) (n : Nat) (c : Char) : Nat := n * r.base + (digitValue? c).getD 0

/-- The number that a row of digits stands for. -/
def value (r : Radix) (ds : List Char) : Nat := ds.foldl r.shift 0

theorem foldl_shift (r : Radix) (n : Nat) (ds : List Char) :
    ds.foldl r.shift n = n * Nat.pow r.base ds.length + r.value ds := by
  induction ds generalizing n with
  | nil => simp [value]
  | cons c ds ih =>
    simp only [value, List.foldl_cons, List.length_cons] at *
    rw [ih, ih (r.shift 0 c)]
    simp only [Nat.pow_eq, shift, Nat.zero_mul, Nat.zero_add, Nat.add_mul, Nat.pow_succ']
    rw [Nat.mul_assoc, Nat.add_assoc]

theorem value_append (r : Radix) (ds es : List Char) :
    r.value (ds ++ es) = r.value ds * Nat.pow r.base es.length + r.value es := by
  rw [value, List.foldl_append, foldl_shift]
  rfl

theorem ofNat_eq_error {n : Nat} {e : BuildError} (h : ofNat n = .error e) :
    e = .unsupportedRadix n ∧ (n < 2 ∨ 36 < n) := by
  unfold ofNat at h
  split at h
  · cases h
  · cases h
    exact ⟨rfl, by omega⟩

end Radix

end PegParsing
