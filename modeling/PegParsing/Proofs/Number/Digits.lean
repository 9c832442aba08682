import Mathlib.Data.List.Forall2
import Mathlib.Data.List.Induction
import Mathlib.Data.Nat.Digits.Defs
import PegParsing.Number.Radix
import PegParsing.Predicate

/-!
# What digits stand for

What a digit is worth is its place in the row of all digits (`DigitWorth`), and what a row of digits
stands for is the sum of what they are worth, each as often as its place says (`Radix.Denotes`). The
readers of digits and of rows of digits find just that (`digitValue?_eq_some_iff`, `Radix.denotes_iff`).
-/

namespace PegParsing

/-- The digits of the largest base, in the order of their values. -/
def digitRow : List Char := "0123456789abcdefghijklmnopqrstuvwxyz".toList

/-- A digit is worth its place in the row, letters in either case. -/
def DigitWorth (c : Char) (v : Nat) : Prop := digitRow.idxOf? c.toLower = some v

theorem digitRow_ascii : digitRow.all (·.toNat < 128) = true := by
  decide

theorem digitValue?_eq_idxOf? (c : Char) : digitValue? c = digitRow.idxOf? c.toLower := by
  by_cases hc : c.toNat < 128
  · have ascii : ∀ n < 128,
        digitValue? (Char.ofNat n) = digitRow.idxOf? (Char.ofNat n).toLower := by
      decide +kernel
    have h := ascii c.toNat hc
    rwa [Char.ofNat_toNat] at h
  · have hlower : c.toLower = c := dif_neg fun hup => by
      have hle : c.toNat ≤ 90 := hup.2
      omega
    have hrow : c ∉ digitRow := fun hmem =>
      hc (of_decide_eq_true (List.all_eq_true.1 digitRow_ascii c hmem))
    rw [hlower, List.idxOf?_eq_none_iff.2 hrow]
    have hlast : ∀ d : Char, d.toNat < 128 → ¬ c ≤ d := fun d hd hle =>
      hc (Nat.lt_of_le_of_lt hle hd)
    unfold digitValue?
    rw [if_neg fun h => hlast '9' (by decide) h.2, if_neg fun h => hlast 'z' (by decide) h.2,
      if_neg fun h => hlast 'Z' (by decide) h.2]

/-- The reader knows what each digit is worth, and no other characters. -/
theorem digitValue?_eq_some_iff {c : Char} {v : Nat} : digitValue? c = some v ↔ DigitWorth c v := by
  rw [digitValue?_eq_idxOf?, DigitWorth]

theorem forall₂_digitWorth_iff {ds : List Char} {vs : List Nat} :
    List.Forall₂ DigitWorth ds vs ↔ ds.map digitValue? = vs.map some := by
  rw [← List.forall₂_eq_eq_eq, List.forall₂_map_left_iff, List.forall₂_map_right_iff]
  simp only [digitValue?_eq_some_iff]

/-! ## Rows of digits -/

namespace Radix

variable {r : Radix} {ds : List Char} {n : Nat}

/-- The digits of a base are those that are worth less than it. -/
theorem isDigit_iff {c : Char} : r.isDigit c = true ↔ ∃ v < r.base, DigitWorth c v := by
  unfold isDigit
  rw [Option.any_eq_true]
  simp only [decide_eq_true_eq, digitValue?_eq_some_iff]
  exact exists_congr fun v => and_comm

/-- The number that digits stand for: the last counts once, the one before it as often as the base
says, and so on. -/
def Denotes (r : Radix) (ds : List Char) (n : Nat) : Prop :=
  ∃ vs, List.Forall₂ DigitWorth ds vs ∧ n = Nat.ofDigits r.base vs.reverse

theorem value_concat (r : Radix) (ds : List Char) (c : Char) :
    r.value (ds ++ [c]) = r.value ds * r.base + (digitValue? c).getD 0 := by
  unfold value
  rw [List.foldl_append]
  rfl

theorem value_eq_ofDigits {vs : List Nat} (h : List.Forall₂ DigitWorth ds vs) :
    r.value ds = Nat.ofDigits r.base vs.reverse := by
  rw [forall₂_digitWorth_iff] at h
  induction ds using List.reverseRecOn generalizing vs with
  | nil =>
    obtain rfl := List.map_eq_nil_iff.1 h.symm
    rfl
  | append_singleton ds c ih =>
    rw [List.map_append] at h
    obtain ⟨us, ws, rfl, hus, hws⟩ := List.map_eq_append_iff.1 h.symm
    obtain ⟨v, rfl, hv⟩ := List.map_eq_singleton_iff.1 hws
    rw [value_concat, ih hus.symm, ← hv, List.reverse_append, List.reverse_singleton,
      List.singleton_append, Nat.ofDigits_cons, Nat.mul_comm, Nat.add_comm]
    rfl

theorem exists_values (h : ∀ c ∈ ds, r.isDigit c = true) : ∃ vs, List.Forall₂ DigitWorth ds vs := by
  induction ds with
  | nil => exact ⟨[], .nil⟩
  | cons c ds ih =>
    obtain ⟨hc, hds⟩ := List.forall_mem_cons.1 h
    obtain ⟨v, -, hv⟩ := isDigit_iff.1 hc
    obtain ⟨vs, hvs⟩ := ih hds
    exact ⟨v :: vs, .cons hv hvs⟩

/-- The digits of a base stand for the one number that the reader finds. -/
theorem denotes_iff (h : ∀ c ∈ ds, r.isDigit c = true) : r.Denotes ds n ↔ n = r.value ds := by
  constructor
  · rintro ⟨vs, hvs, rfl⟩
    exact (value_eq_ofDigits hvs).symm
  · rintro rfl
    obtain ⟨vs, hvs⟩ := exists_values h
    exact ⟨vs, hvs, value_eq_ofDigits hvs⟩

/-- No digit can be taken for a sign. -/
theorem not_isSign_of_isDigit {c : Char} (h : r.isDigit c = true) : c ≠ '-' ∧ c ≠ '+' := by
  constructor
  · rintro rfl
    cases h
  · rintro rfl
    cases h

/-- The digits of base ten are the decimal digits. -/
theorem isDigit_decimal (c : Char) : decimal.isDigit c = Predicate.isDigit c := by
  unfold isDigit digitValue? Predicate.isDigit
  by_cases h : '0' ≤ c ∧ c ≤ '9'
  · have hle : c.toNat ≤ 57 := h.2
    have hlt : c.toNat - 48 < 10 := by omega
    rw [if_pos h, decide_eq_true h]
    exact decide_eq_true hlt
  · -- letters are worth ten and more
    have hletter : ∀ n, (some (n + 10)).any (fun v => decide (v < decimal.base)) = false := fun n =>
      decide_eq_false (Nat.not_lt.2 (Nat.le_add_left 10 n))
    rw [if_neg h, decide_eq_false h]
    split
    · exact hletter _
    · split
      · exact hletter _
      · rfl

end Radix

end PegParsing
