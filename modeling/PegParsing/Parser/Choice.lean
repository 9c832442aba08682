import PegParsing.Parser.Basic

/-!
# Ordered choice

A choice runs its alternatives in order and takes the first that succeeds. If all fail, it reports
the failure that came furthest, and of several that came equally far the earliest.
-/

namespace PegParsing

/-- The failure to report of two, `first` being the earlier one. -/
def Parsed.furthest {α : Type} (first second : Parsed α) : Parsed α :=
  if first.cursor.offset < second.cursor.offset then second else first

namespace Parser

variable {α β : Type}

/-- Runs `q` where `p` fails. -/
def orElse (p q : Parser α) : Parser α := fun here stop =>
  (p here stop).bind fun
    | ⟨c, .ok v⟩ => some (.success c v)
    | ⟨c, .error code⟩ =>
      (q here stop).map fun
        | ⟨d, .ok v⟩ => .success d v
        | ⟨d, .error other⟩ => Parsed.furthest (.failure c code) (.failure d other)

/-- The first alternative that succeeds. A choice of nothing always fails. -/
def choice : List (Parser α) → Parser α
  | [] => failAt .unknown
  | [p] => p
  | p :: q :: ps => orElse p (choice (q :: ps))

/-- A choice that tells its alternatives apart: `tag` gets the number of the alternative, counted
from 0, and its value. -/
def taggedChoice (tag : Nat → α → β) (ps : List (Parser α)) : Parser β :=
  choice (ps.zipIdx.map fun (p, i) => p.map (tag i))

@[simp] theorem choice_singleton (p : Parser α) : choice [p] = p := rfl

theorem choice_cons (p : Parser α) {ps : List (Parser α)} (h : ps ≠ []) :
    choice (p :: ps) = orElse p (choice ps) := by
  cases ps with
  | nil => exact absurd rfl h
  | cons q ps => rfl

end Parser

end PegParsing
