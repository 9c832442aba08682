/-!
# Ranges of code points

A property of characters is given as the closed ranges of code points that have it, ascending and
apart. A search may then stop at the first range that lies above. Main statement: it finds every
range there is to find.
-/

namespace PegParsing.Text

abbrev CodeRanges := List (Nat × Nat)

namespace CodeRanges

/-- Each range has a code point in it, and a gap before the next one. -/
def apart : CodeRanges → Bool
  | [] => true
  | [r] => r.1 ≤ r.2
  | r :: s :: rest => r.1 ≤ r.2 && r.2 + 1 < s.1 && apart (s :: rest)

/-- How many code points lie in the ranges. -/
def size (ranges : CodeRanges) : Nat := ranges.foldl (fun n r => n + (r.2 + 1 - r.1)) 0

def holds : CodeRanges → Char → Bool
  | [], _ => false
  | r :: rest, c => r.1 ≤ c.toNat && (c.toNat ≤ r.2 || holds rest c)

theorem apart_tail {r : Nat × Nat} {rest : CodeRanges} (h : apart (r :: rest)) : rest.apart := by
  cases rest <;> simp_all [apart]

theorem lt_of_apart {r s : Nat × Nat} {rest : CodeRanges} (h : apart (r :: rest)) (hs : s ∈ rest) :
    r.1 < s.1 := by
  induction rest generalizing r with
  | nil => simp at hs
  | cons t rest ih =>
    have hr : r.1 < t.1 := by
      simp [apart] at h
      omega
    rcases List.mem_cons.1 hs with rfl | hs
    · exact hr
    · exact Nat.lt_trans hr (ih (apart_tail h) hs)

theorem holds_iff {ranges : CodeRanges} {c : Char} (h : ranges.apart) :
    ranges.holds c ↔ ∃ r ∈ ranges, r.1 ≤ c.toNat ∧ c.toNat ≤ r.2 := by
  induction ranges with
  | nil => simp [holds]
  | cons r rest ih =>
    have above : (∃ s ∈ rest, s.1 ≤ c.toNat ∧ c.toNat ≤ s.2) → r.1 ≤ c.toNat := fun ⟨s, hs, hc⟩ =>
      Nat.le_of_lt (Nat.lt_of_lt_of_le (lt_of_apart h hs) hc.1)
    simp [holds, ih (apart_tail h)] at above ⊢
    grind

end CodeRanges

end PegParsing.Text
