import PegParsing.BuildError

/-!
# How often

`Bounds` are a lower and an optional upper bound that do not cross. `RepeatSpec` lists the ways in
which bounds are asked for; only `between` can ask for bounds that cross.
-/

namespace PegParsing

structure Bounds where
  min : Nat
  max : Option Nat
  min_le : ∀ n ∈ max, min ≤ n

namespace Bounds

def any : Bounds := ⟨0, none, by simp⟩

def atLeast (n : Nat) : Bounds := ⟨n, none, by simp⟩

def atMost (n : Nat) : Bounds := ⟨0, some n, by simp⟩

def exactly (n : Nat) : Bounds := ⟨n, some n, by simp⟩

/-- The given bounds, unless they cross. -/
def between? (min : Nat) : Option Nat → Option Bounds
  | none => some (atLeast min)
  | some max => if h : min ≤ max then some ⟨min, some max, by simpa using h⟩ else none

/-- A count that cannot grow. -/
def full (b : Bounds) (count : Nat) : Bool := b.max.any (· ≤ count)

@[simp] theorem full_any (count : Nat) : any.full count = false := rfl

@[simp] theorem full_atLeast (n count : Nat) : (atLeast n).full count = false := rfl

theorem between?_some (min max : Nat) :
    between? min (some max) = if h : min ≤ max then some ⟨min, some max, by simpa using h⟩ else none :=
  rfl

theorem between?_eq_none_iff {min : Nat} {max : Option Nat} :
    between? min max = none ↔ ∃ n, max = some n ∧ n < min := by
  cases max with
  | none => simp [between?]
  | some n => by_cases h : min ≤ n <;> simp [between?_some, h, Nat.lt_of_not_le]

theorem between?_eq_some {min : Nat} {max : Option Nat} {b : Bounds}
    (h : between? min max = some b) : b.min = min ∧ b.max = max := by
  cases max with
  | none => cases h; exact ⟨rfl, rfl⟩
  | some n =>
    by_cases hn : min ≤ n
    · rw [between?_some, dif_pos hn] at h
      cases h
      exact ⟨rfl, rfl⟩
    · rw [between?_some, dif_neg hn] at h
      cases h

end Bounds

inductive RepeatSpec where
  | any
  | min (n : Nat)
  | max (n : Nat)
  | between (min : Nat) (max : Option Nat)
  | exactly (n : Nat)
  deriving DecidableEq, Repr

/-- The bounds that a specification stands for. -/
def RepeatSpec.bounds : RepeatSpec → Except BuildError Bounds
  | any => .ok .any
  | min n => .ok (.atLeast n)
  | max n => .ok (.atMost n)
  | between lo hi =>
    match Bounds.between? lo hi with
    | some b => .ok b
    | none => .error (.badRepetitionBounds lo hi)
  | exactly n => .ok (.exactly n)

end PegParsing
