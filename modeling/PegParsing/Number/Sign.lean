import PegParsing.Parser.Choice
import PegParsing.Parser.Primitive

/-!
# Signs

Which signs a number may begin with. As a parser, a policy reads the sign that it accepts.
-/

namespace PegParsing

inductive SignPolicy where
  | never
  | minus
  | allowed
  | required
  deriving DecidableEq, Repr

def SignPolicy.parser : SignPolicy → Parser Unit
  | never => .empty
  | minus => .choice [.char '-', .empty]
  | allowed => .choice [.char '-', .char '+', .empty]
  | required => .choice [.char '-', .char '+']

end PegParsing
