import PegParsing.Parser.Primitive
import PegParsing.Parser.Repetition

/-!
# White space
-/

namespace PegParsing.Parser

/-- Reads all white space that follows, line ends included. Never fails. -/
def textSpace : Parser Unit := (times .any (charIf Predicate.isSpace)).skip

/-- The character `c` with white space on both sides. A blank stands for any white space. -/
def spacedChar (c : Char) : Parser Unit :=
  textSpace.bind fun _ =>
    if Predicate.isBlank c then empty else (char c).bind fun _ => textSpace

end PegParsing.Parser
