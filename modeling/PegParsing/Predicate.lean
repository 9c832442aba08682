/-!
# Predicates on characters and values

Predicates are Boolean functions. The character classes know ASCII alone: no character outside it
is a digit, a letter or a space.
-/

namespace PegParsing.Predicate

variable {α : Type}

/-! ## Combining predicates -/

def whenAny (ps : List (α → Bool)) : α → Bool := fun x => ps.any (· x)

def whenAll (ps : List (α → Bool)) : α → Bool := fun x => ps.all (· x)

def negate (p : α → Bool) : α → Bool := fun x => !p x

/-- One of the values `xs`. -/
def equals [BEq α] (xs : List α) : α → Bool := fun x => xs.contains x

/-- None of the values `xs`. -/
def notEquals [BEq α] (xs : List α) : α → Bool := fun x => !xs.contains x

/-- From `lo` up to `hi`, both included. -/
def inRange [LE α] [DecidableLE α] (lo hi : α) : α → Bool := fun x => lo ≤ x ∧ x ≤ hi

/-! ## Character classes -/

def isDigit (c : Char) : Bool := '0' ≤ c ∧ c ≤ '9'

def isAlpha (c : Char) : Bool := ('a' ≤ c ∧ c ≤ 'z') ∨ ('A' ≤ c ∧ c ≤ 'Z')

def isAlnum (c : Char) : Bool := isAlpha c || isDigit c

/-- Blank, tab, line feed, carriage return, vertical tab and form feed. -/
def isSpace (c : Char) : Bool := [' ', '\t', '\n', '\r', '\x0b', '\x0c'].contains c

/-- White space that does not end a line. -/
def isLineSpace (c : Char) : Bool := [' ', '\t', '\x0b', '\x0c'].contains c

/-- The blanks of ASCII text: as `isSpace`, but without the vertical tab. -/
def isBlank (c : Char) : Bool := [' ', '\t', '\n', '\r', '\x0c'].contains c

theorem isSpace_iff (c : Char) : isSpace c ↔ isBlank c ∨ c = '\x0b' := by
  simp [isSpace, isBlank]
  grind

end PegParsing.Predicate
