import PegParsing.Text.Quoted

/-!
# Parsers that cannot be built

Bounds that cross, a base without digits and a symbol table with a key written twice are refused
when the parser is built, before any text is read.

Upper bounds are optional. One that is missing is written as the greatest count that fits into 64
bits.
-/

namespace PegParsing

/-- An upper bound in messages. -/
def limitText (max : Option Nat) : String := toString (max.getD (Nat.pow 2 64 - 1))

inductive BuildError where
  | unsupportedRadix (radix : Nat)
  | badDigitCount (min : Nat) (max : Option Nat)
  | badDecimalCount (min : Nat) (max : Option Nat)
  | badRepetitionBounds (min : Nat) (max : Option Nat)
  | duplicateSymbol (key : String)
  deriving DecidableEq, Repr

def BuildError.message : BuildError → String
  | unsupportedRadix radix => s!"unsupported radix {radix}"
  | badDigitCount min max => s!"bad digit count {min}..={limitText max}"
  | badDecimalCount min max => s!"bad decimal count {min}..={limitText max}"
  | badRepetitionBounds min max => s!"bad repetition bounds {min}..={limitText max}"
  | duplicateSymbol key => s!"duplicate symbol {Text.quoted key}"

end PegParsing
