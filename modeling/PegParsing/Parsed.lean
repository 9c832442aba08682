import PegParsing.Cursor
import PegParsing.ErrorCode

/-!
# The result of a parse

A parse ends at a cursor, either with a value or with an error code. The cursor of a failure is
the place that the failure is about.
-/

namespace PegParsing

structure Parsed (α : Type) where
  cursor : Cursor
  outcome : Except ErrorCode α

instance {α : Type} [DecidableEq α] : DecidableEq (Parsed α)
  | ⟨c, .ok v⟩, ⟨d, .ok w⟩ => decidable_of_iff (c = d ∧ v = w) (by simp)
  | ⟨c, .error e⟩, ⟨d, .error f⟩ => decidable_of_iff (c = d ∧ e = f) (by simp)
  | ⟨_, .ok _⟩, ⟨_, .error _⟩ => isFalse (by simp)
  | ⟨_, .error _⟩, ⟨_, .ok _⟩ => isFalse (by simp)

/-- What is reported when the value of a failed parse is asked for. -/
structure BadAccess where
  code : ErrorCode
  offset : Nat
  deriving DecidableEq, Repr

def BadAccess.message (e : BadAccess) : String :=
  s!"bad parse result access: parse failed with {e.code.message} at {e.offset}"

namespace Parsed

variable {α β : Type}

def success (cursor : Cursor) (v : α) : Parsed α := ⟨cursor, .ok v⟩

def failure (cursor : Cursor) (code : ErrorCode) : Parsed α := ⟨cursor, .error code⟩

def isOk (r : Parsed α) : Bool := r.outcome.isOk

def error? (r : Parsed α) : Option ErrorCode :=
  match r.outcome with
  | .ok _ => none
  | .error code => some code

/-- The value, or an account of the failure. -/
def value (r : Parsed α) : Except BadAccess α :=
  r.outcome.mapError fun code => ⟨code, r.cursor.offset⟩

/-- Puts a value through a function that may refuse it; the cursor stays. -/
def andThen (f : α → Except ErrorCode β) (r : Parsed α) : Parsed β := ⟨r.cursor, r.outcome.bind f⟩

def map (f : α → β) (r : Parsed α) : Parsed β := ⟨r.cursor, r.outcome.map f⟩

/-- Where and how the parse ended, whatever its value. -/
def status (r : Parsed α) : String :=
  match r.outcome with
  | .ok _ => s!"Ok(Nothing) at {r.cursor.offset}"
  | .error code => s!"Err({code.name}) at {r.cursor.offset}"

@[simp] theorem andThen_success (f : α → Except ErrorCode β) (c : Cursor) (v : α) :
    (success c v).andThen f = ⟨c, f v⟩ := rfl

@[simp] theorem andThen_failure (f : α → Except ErrorCode β) (c : Cursor) (code : ErrorCode) :
    (failure c code).andThen f = failure c code := rfl

@[simp] theorem map_success (f : α → β) (c : Cursor) (v : α) :
    (success c v).map f = success c (f v) := rfl

@[simp] theorem map_failure (f : α → β) (c : Cursor) (code : ErrorCode) :
    (failure c code : Parsed α).map f = failure c code := rfl

theorem map_map {γ : Type} (f : α → β) (g : β → γ) (r : Parsed α) :
    (r.map f).map g = r.map (g ∘ f) := by
  rcases r with ⟨c, code | v⟩ <;> rfl

end Parsed

end PegParsing
