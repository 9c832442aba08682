import PegParsing.Number.Radix
import PegParsing.Predicate

/-!
# Decimal numerals

A numeral is a sign, digits with an optional point among them and an optional exponent, with at
least one digit before the exponent. It stands for `± significand * 10 ^ exponent`.
-/

namespace PegParsing

structure Decimal where
  negative : Bool
  significand : Nat
  exponent : Int
  deriving DecidableEq, Repr

namespace Decimal

/-- Takes a sign off; `true` is a minus. -/
def takeSign : List Char → Bool × List Char
  | '-' :: cs => (true, cs)
  | '+' :: cs => (false, cs)
  | cs => (false, cs)

/-- The digits behind a point, and what follows them. -/
def takeFraction : List Char → List Char × List Char
  | '.' :: cs => cs.span Predicate.isDigit
  | cs => ([], cs)

/-- The exponent; it must be all that is left. -/
def readExponent? : List Char → Option Int
  | [] => some 0
  | c :: cs =>
    if c = 'e' ∨ c = 'E' then
      let (negative, ds) := takeSign cs
      if ds ≠ [] ∧ ds.all Predicate.isDigit then
        some (if negative then -(Radix.decimal.value ds : Int) else Radix.decimal.value ds)
      else none
    else none

def ofChars? (cs : List Char) : Option Decimal :=
  let (negative, cs) := takeSign cs
  let (whole, cs) := cs.span Predicate.isDigit
  let (fraction, cs) := takeFraction cs
  if whole ++ fraction = [] then none
  else (readExponent? cs).map fun exponent =>
    ⟨negative, Radix.decimal.value (whole ++ fraction), exponent - fraction.length⟩

/-- What stands before the exponent. -/
def mantissa (cs : List Char) : List Char := cs.takeWhile fun c => c ≠ 'e' ∧ c ≠ 'E'

end Decimal

end PegParsing
