/-!
# Why a parse fails

Every failure carries one of these codes. A code has a name, by which programs tell codes apart,
and a text for people.
-/

namespace PegParsing

inductive ErrorCode where
  | unknown
  | unexpectedEof
  | unexpectedChar
  | expectedEof
  | expectedChar
  | expectedString
  | expectedType
  | expectedEndOfLine
  | symbolNotFound
  | symbolNotExpected
  | alwaysFail
  | tooFew
  | underflow
  | overflow
  deriving DecidableEq, Repr

namespace ErrorCode

def all : List ErrorCode :=
  [unknown, unexpectedEof, unexpectedChar, expectedEof, expectedChar, expectedString, expectedType,
    expectedEndOfLine, symbolNotFound, symbolNotExpected, alwaysFail, tooFew, underflow, overflow]

theorem mem_all (code : ErrorCode) : code ∈ all := by
  cases code <;> decide

def name : ErrorCode → String
  | unknown => "Unknown"
  | unexpectedEof => "UnexpectedEof"
  | unexpectedChar => "UnexpectedChar"
  | expectedEof => "ExpectedEof"
  | expectedChar => "ExpectedChar"
  | expectedString => "ExpectedString"
  | expectedType => "ExpectedType"
  | expectedEndOfLine => "ExpectedEndOfLine"
  | symbolNotFound => "SymbolNotFound"
  | symbolNotExpected => "SymbolNotExpected"
  | alwaysFail => "AlwaysFail"
  | tooFew => "TooFew"
  | underflow => "Underflow"
  | overflow => "Overflow"

def message : ErrorCode → String
  | unknown => "unknown error"
  | unexpectedEof => "unexpected end of input"
  | unexpectedChar => "unexpected character"
  | expectedEof => "expected end of input"
  | expectedChar => "expected character"
  | expectedString => "expected string"
  | expectedType => "expected type"
  | expectedEndOfLine => "expected end of line"
  | symbolNotFound => "symbol not found"
  | symbolNotExpected => "symbol not expected"
  | alwaysFail => "always fail"
  | tooFew => "too few repetitions"
  | underflow => "numeric underflow"
  | overflow => "numeric overflow"

/-- The code with a given name. -/
def ofName? (name : String) : Option ErrorCode := all.find? (·.name == name)

theorem ofName?_name (code : ErrorCode) : ofName? code.name = some code := by
  cases code <;> decide

end ErrorCode

end PegParsing
