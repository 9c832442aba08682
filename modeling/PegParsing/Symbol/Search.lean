/-!
# Searching for a border

Where a predicate holds up to some index and fails from there on, `border` finds that index by
halving. `border_spec` is what it promises.
-/

namespace PegParsing.Symbol

/-- The first index from `lo` up to `hi` at which `p` fails. -/
def border (p : Nat → Bool) (lo hi : Nat) : Nat :=
  if lo < hi then
    let mid := lo + (hi - lo) / 2
    if p mid then border p (mid + 1) hi else border p lo mid
  else lo
termination_by hi - lo

theorem border_spec {p : Nat → Bool} {lo hi : Nat} (hle : lo ≤ hi)
    (mono : ∀ i j, lo ≤ i → i ≤ j → j < hi → p j → p i) :
    lo ≤ border p lo hi ∧ border p lo hi ≤ hi ∧ (∀ i, lo ≤ i → i < border p lo hi → p i) ∧
      ∀ i, border p lo hi ≤ i → i < hi → p i = false := by
  fun_induction border p lo hi with
  | case1 lo hi hlt mid hp ih =>
    obtain ⟨h₁, h₂, h₃, h₄⟩ := ih (by omega) fun i j hi hij hj => mono i j (by omega) hij hj
    refine ⟨by omega, h₂, fun i hlo hi => ?_, h₄⟩
    by_cases him : i ≤ mid
    · exact mono i mid hlo him (by omega) hp
    · exact h₃ i (by omega) hi
  | case2 lo hi hlt mid hp ih =>
    obtain ⟨h₁, h₂, h₃, h₄⟩ := ih (by omega) fun i j hi hij hj => mono i j hi hij (by omega)
    refine ⟨h₁, by omega, h₃, fun i hlo hi => ?_⟩
    by_cases him : mid ≤ i
    · cases hpi : p i with
      | false => rfl
      | true => exact absurd (mono mid i (by omega) him hi hpi) hp
    · exact h₄ i hlo (by omega)
  | case3 lo hi hlt => exact ⟨by omega, by omega, fun i _ _ => by omega, fun i _ _ => by omega⟩

end PegParsing.Symbol
