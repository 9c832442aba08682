import PegParsing.Number.Binary
import PegParsing.Number.Sign
import PegParsing.Parser.Repetition
import PegParsing.Parser.Sequence
import PegParsing.Symbol.Table

/-!
# Real numbers

A real number is a sign, digits, a point with further digits and an exponent; what may or must be
there is a matter of the format. At least one digit must stand before the exponent, so that a lone
point is not a number. A number that is too large for the format, or that is not zero but would
be rounded to zero, is an overflow, reported behind the number.

Besides numbers a format may know the symbols for infinities and for "not a number".
-/

namespace PegParsing

inductive PointPolicy where
  | allowed
  | required
  deriving DecidableEq, Repr

inductive ExponentPolicy where
  | never
  | allowed
  | required
  deriving DecidableEq, Repr

/-- How a real number is written. -/
structure RealFormat where
  format : BinaryFormat
  sign : SignPolicy
  point : PointPolicy
  exponent : ExponentPolicy
  /-- Whether infinities and "not a number" are known. -/
  symbols : Bool
  /-- How many digits stand before the point. -/
  digits : Bounds
  /-- How many digits stand behind the point. -/
  decimals : Bounds

namespace RealFormat

open PegParsing.Parser

/-- Everything is allowed and nothing required. -/
def ofFormat (format : BinaryFormat) : RealFormat where
  format := format
  sign := .allowed
  point := .allowed
  exponent := .allowed
  symbols := true
  digits := .any
  decimals := .any

def withDigits (f : RealFormat) (min : Nat) (max : Option Nat) : Except BuildError RealFormat :=
  match Bounds.between? min max with
  | none => .error (.badDigitCount min max)
  | some b => .ok { f with digits := b }

def withDecimals (f : RealFormat) (min : Nat) (max : Option Nat) : Except BuildError RealFormat :=
  match Bounds.between? min max with
  | none => .error (.badDecimalCount min max)
  | some b => .ok { f with decimals := b }

/-! ## The text of a number -/

def digitRun (b : Bounds) : Parser Unit := (times b digit).skip

/-- A number that must have decimals must have a point. -/
def pointRequired (f : RealFormat) : Bool := f.point = .required ∨ 0 < f.decimals.min

def fraction (f : RealFormat) : Parser Unit := skips [char '.', digitRun f.decimals]

def exponentPart : Parser Unit :=
  skips [choice [char 'e', char 'E'], SignPolicy.allowed.parser, digitRun (.atLeast 1)]

def numeral (f : RealFormat) : Parser Unit :=
  skips [
    f.sign.parser,
    digitRun f.digits,
    choice [f.fraction, enabled (!f.pointRequired) empty],
    choice [enabled (f.exponent ≠ .never) exponentPart, enabled (f.exponent ≠ .required) empty]]

/-- A point without a digit behind it, and without one before it. -/
def lonePoint (f : RealFormat) : Parser Unit := skips [f.sign.parser, char '.', reject digit]

def image (f : RealFormat) : Parser (List Char) := exceptWhere f.lonePoint (raw f.numeral)

/-! ## The number -/

/-- The number of an image that ends at `last`. -/
def read (f : RealFormat) (here stop last : Cursor) (image : List Char) : Parsed BinaryFloat :=
  let mantissa := Decimal.mantissa image
  if !mantissa.any Predicate.isDigit then
    .failure here (if here.atEnd stop then .unexpectedEof else .unexpectedChar)
  else match Decimal.ofChars? image with
    | none => .failure here .expectedType
    | some d =>
      let x := f.format.ofDecimal d
      if x.isInfinite ∨ (x.isZero ∧ mantissa.any fun c => '1' ≤ c ∧ c ≤ '9') then
        .failure last .overflow
      else .success last x

def number (f : RealFormat) : Parser BinaryFloat := fun here stop =>
  (f.image here stop).map fun
    | ⟨last, .ok image⟩ => f.read here stop last image
    | ⟨c, .error code⟩ => .failure c code

/-- The symbols, in any case and with any sign. -/
def symbolTable : SymbolTable BinaryFloat where
  case := .ignored
  entries := #[("+inf", .infinite false), ("+nan", .nan), ("-inf", .infinite true), ("-nan", .nan),
    ("inf", .infinite false), ("nan", .nan)]
  increasing := by decide

def parser (f : RealFormat) : Parser BinaryFloat :=
  choice [f.number, enabled f.symbols symbolTable.parser]

end RealFormat

end PegParsing
