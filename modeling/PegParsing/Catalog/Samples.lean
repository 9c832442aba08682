import PegParsing.Catalog.Arithmetic
import PegParsing.Catalog.Json

/-!
# Small grammars
-/

namespace PegParsing.Catalog

open Grammar

/-- A word in brackets and a number. -/
def bracketedLine : Grammar :=
  let inBrackets := seq [
    char '(',
    .choice [yielding (char 'x') (.str "xyz"), stringOf "abcde12345" (.atLeast 1)],
    char ')']
  seq [inBrackets, allSpace, real .double]

/-- Two digits, a dash and two digits. -/
def shortDate : Grammar := toVec [digit, digit, literal "-", digit, digit]

/-- Two digits with a colon between them. -/
def point : Grammar := toVec [digit, literal ":", digit]

/-- Words for numbers of different widths. -/
def size : Grammar :=
  .choice [yielding (literal "small") (.int 7), yielding (literal "big") (.int 1048576)]

/-- Alternatives whose values are told apart. -/
def tagged : Grammar :=
  .variants [digit, yielding (literal "x") (.int 10), yielding (literal "y") (.str "why")]

/-- The sum of the two integers of a pair. -/
def addPair : Value → Value
  | .tuple [.int a, .int b] => .int (a + b)
  | v => v

def sum : Grammar :=
  let int32 := integer ⟨true, 32⟩
  .map addPair (seq [int32, spacedChar '+', int32])

/-- Eight digits in three groups. -/
def eightDigits : Grammar :=
  seq [literal "[", digit, digit, literal "-", digit, digit, digit, literal "-", digit, digit, digit,
    literal "]"]

/-- A word to which an even number or nothing is assigned. -/
def assignment : Grammar :=
  let even := Grammar.check (Value.isIntThat fun n => n % 2 = 0) (integer ⟨false, 8⟩)
  .sequence allSpace [word (.atLeast 1) Predicate.isAlpha, literal "=", .opt even, literal ";"]

/-- The languages of the catalogue by their names. -/
def languages : List (String × Language) := [
  ("json", Json.document),
  ("calc", Arithmetic.calculation),
  ("line", .ofGrammar bracketedLine),
  ("date", .ofGrammar shortDate),
  ("point", .ofGrammar point),
  ("sized", .ofGrammar size),
  ("tagged", .ofGrammar tagged),
  ("sum", .ofGrammar sum),
  ("digits8", .ofGrammar eightDigits),
  ("assign", .ofGrammar assignment)]

def find? (name : String) : Option Language := (languages.find? (·.1 = name)).map (·.2)

end PegParsing.Catalog
