import PegParsing.Number.Radix
import PegParsing.Number.Sign
import PegParsing.Parser.Repetition
import PegParsing.Parser.Sequence

/-!
# Integers

An integer is a sign followed by a run of digits. Its value must lie in the range of a machine
type: a number that is too large is an overflow, a negative one that is too small an underflow,
both reported behind the digits. An unsigned type has no room for a number with a minus sign.
-/

namespace PegParsing

structure IntType where
  signed : Bool
  bits : Nat
  deriving DecidableEq, Repr

namespace IntType

def max (t : IntType) : Int :=
  if t.signed then Nat.pow 2 (t.bits - 1) - 1 else Nat.pow 2 t.bits - 1

def min (t : IntType) : Int := if t.signed then -Nat.pow 2 (t.bits - 1) else 0

def contains (t : IntType) (n : Int) : Bool := t.min ≤ n ∧ n ≤ t.max

/-- The value of the digits without a sign, or with a plus. -/
def ofMagnitude (t : IntType) (n : Nat) : Except ErrorCode Int :=
  if (n : Int) ≤ t.max then .ok n else .error .overflow

/-- The value of the digits behind a minus. -/
def ofNegated (t : IntType) (n : Nat) : Except ErrorCode Int :=
  if t.signed ∧ t.min ≤ -(n : Int) then .ok (-n) else .error .underflow

end IntType

/-- How an integer is written. -/
structure IntFormat where
  type : IntType
  radix : Radix
  sign : SignPolicy
  digits : Bounds
  digits_pos : 0 < digits.min

namespace IntFormat

/-- Decimal, with any number of digits, and with a sign only if the type has one. -/
def ofType (type : IntType) : IntFormat where
  type := type
  radix := .decimal
  sign := if type.signed then .allowed else .never
  digits := .atLeast 1
  digits_pos := Nat.one_pos

def withRadix (f : IntFormat) (n : Nat) : Except BuildError IntFormat :=
  (Radix.ofNat n).map fun r => { f with radix := r }

def withSign (f : IntFormat) (sign : SignPolicy) : IntFormat := { f with sign := sign }

/-- Bounds on the number of digits. There must be at least one. -/
def withDigits (f : IntFormat) (min : Nat) (max : Option Nat) : Except BuildError IntFormat :=
  match Bounds.between? min max with
  | none => .error (.badDigitCount min max)
  | some b =>
    if h : 0 < b.min then .ok { f with digits := b, digits_pos := h }
    else .error (.badDigitCount min max)

/-- The sign and the digits. -/
def image (f : IntFormat) : Parser (List Char) :=
  .raw (.skips [f.sign.parser, (Parser.times f.digits (.charIf f.radix.isDigit)).skip])

/-- The integer that an image stands for, if it fits. -/
def read (f : IntFormat) : List Char → Except ErrorCode Int
  | '-' :: ds => f.type.ofNegated (f.radix.value ds)
  | '+' :: ds => f.type.ofMagnitude (f.radix.value ds)
  | ds => f.type.ofMagnitude (f.radix.value ds)

def parser (f : IntFormat) : Parser Int := f.image.apply f.read

end IntFormat

end PegParsing
