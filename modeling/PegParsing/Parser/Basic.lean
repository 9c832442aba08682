import PegParsing.Parsed

/-!
# Parsers

A parser reads the window between two cursors. Its answer is a `Parsed` result, or `none` if it
did not finish: parsers that call themselves through rules run on a limited supply of calls, and
`none` says that the supply ran out. Every combinator hands `none` on, so that it is never taken
for a failure.

A failure is a result like any other. It ends at a cursor too, and combinators may recover from
it by running another parser from a cursor that they kept.
-/

namespace PegParsing

/-- `p here stop` reads what stands between `here` and `stop`. -/
abbrev Parser (α : Type) := Cursor → Cursor → Option (Parsed α)

namespace Parser

variable {α β : Type}

/-- Succeeds with `v` without reading anything. -/
def succeed (v : α) : Parser α := fun here _ => some (.success here v)

/-- Fails where it stands. -/
def failAt (code : ErrorCode) : Parser α := fun here _ => some (.failure here code)

/-- The skip that reads nothing. -/
def empty : Parser Unit := succeed ()

/-- Runs the parser that `f` makes of the value of `p`, behind `p`. -/
def bind (p : Parser α) (f : α → Parser β) : Parser β := fun here stop =>
  (p here stop).bind fun
    | ⟨c, .ok v⟩ => f v c stop
    | ⟨c, .error code⟩ => some (.failure c code)

def map (f : α → β) (p : Parser α) : Parser β := fun here stop =>
  (p here stop).map (·.map f)

/-- Puts the value through a function that may refuse it. A refusal is reported at the cursor
that `p` reached. -/
def apply (f : α → Except ErrorCode β) (p : Parser α) : Parser β := fun here stop =>
  (p here stop).map (·.andThen f)

/-- Refuses values that `accepts` does not hold of. -/
def check (accepts : α → Bool) (p : Parser α) : Parser α :=
  p.apply fun v => if accepts v then .ok v else .error .expectedType

/-- Forgets the value. -/
def skip (p : Parser α) : Parser Unit := p.map fun _ => ()

/-- Never fails: where `p` does, nothing is read. -/
def opt (p : Parser α) : Parser (Option α) := fun here stop =>
  (p here stop).map fun
    | ⟨c, .ok v⟩ => .success c (some v)
    | ⟨_, .error _⟩ => .success here none

/-- The text that `p` reads, in place of its value. -/
def raw (p : Parser α) : Parser (List Char) := fun here stop =>
  (p here stop).map fun r => r.map fun _ => here.textTo r.cursor

/-- Runs `p` if it is enabled, and fails otherwise. -/
def enabled (on : Bool) (p : Parser α) : Parser α := if on then p else failAt .alwaysFail

/-! ## Lookahead -/

/-- Runs `p` where `must` succeeds. Both start at the same cursor. -/
def onlyWhere (must : Parser β) (p : Parser α) : Parser α := fun here stop =>
  (must here stop).bind fun
    | ⟨_, .ok _⟩ => p here stop
    | ⟨c, .error _⟩ => some (.failure c .symbolNotFound)

/-- Runs `p` where `non` fails. -/
def exceptWhere (non : Parser β) (p : Parser α) : Parser α := fun here stop =>
  (non here stop).bind fun
    | ⟨_, .ok _⟩ => some (.failure here .symbolNotExpected)
    | ⟨_, .error _⟩ => p here stop

/-- Succeeds without reading anything where `must` succeeds. -/
def lookahead (must : Parser α) : Parser Unit := onlyWhere must empty

/-- Succeeds without reading anything where `non` fails. -/
def reject (non : Parser α) : Parser Unit := exceptWhere non empty

/-! ## Equations -/

theorem map_map {γ : Type} (f : α → β) (g : β → γ) (p : Parser α) :
    (p.map f).map g = p.map (g ∘ f) := by
  funext here stop
  simp only [map, Option.map_map]
  congr 1
  funext r
  exact r.map_map f g

theorem succeed_bind (v : α) (f : α → Parser β) : (succeed v).bind f = f v := rfl

theorem bind_succeed (p : Parser α) : p.bind succeed = p := by
  funext here stop
  unfold bind
  rcases p here stop with _ | ⟨c, _ | v⟩ <;> rfl

theorem bind_assoc {γ : Type} (p : Parser α) (f : α → Parser β) (g : β → Parser γ) :
    (p.bind f).bind g = p.bind fun v => (f v).bind g := by
  funext here stop
  unfold bind
  rcases p here stop with _ | ⟨c, _ | v⟩ <;> rfl

theorem map_eq_bind (f : α → β) (p : Parser α) : p.map f = p.bind fun v => succeed (f v) := by
  funext here stop
  unfold map bind
  rcases p here stop with _ | ⟨c, _ | v⟩ <;> rfl

end Parser

end PegParsing
