import PegParsing.Grammar.Derived
import PegParsing.Grammar.Language

/-!
# Arithmetic

Sums and products of integers of 64 bits, with brackets. Operators of one rank are applied from
left to right; the first result that is out of range, or the first division by zero, is the
failure of the whole.
-/

namespace PegParsing.Catalog.Arithmetic

open Grammar

def int64 : IntType := ⟨true, 64⟩

inductive Operator where
  | add
  | sub
  | mul
  | div
  deriving DecidableEq, Repr

namespace Operator

def symbol : Operator → Char
  | add => '+'
  | sub => '-'
  | mul => '*'
  | div => '/'

def ofSymbol? (c : Char) : Option Operator := [add, sub, mul, div].find? (·.symbol = c)

/-- Division drops the fraction. -/
def apply : Operator → Int → Int → Except ErrorCode Int
  | add, a, b => .ok (a + b)
  | sub, a, b => .ok (a - b)
  | mul, a, b => .ok (a * b)
  | div, a, b => if b = 0 then .error .expectedType else .ok (a.tdiv b)

end Operator

/-- A result that fits. -/
def inRange (n : Int) : Except ErrorCode Int :=
  if int64.contains n then .ok n else .error .overflow

/-- Applies one operator to what stands to its left. -/
def step (a : Int) : Value → Except ErrorCode Int
  | .tuple [.char c, .int b] =>
    match Operator.ofSymbol? c with
    | some op => op.apply a b >>= inRange
    | none => .error .unknown
  | _ => .error .unknown

/-- The value of a row of operands and operators. -/
def fold : Value → Except ErrorCode Value
  | .tuple [.int a, .list steps] => (steps.foldlM step a).map .int
  | _ => .error .unknown

def operator (op : Operator) : Grammar := yielding (spacedChar op.symbol) (.char op.symbol)

/-- Operands with operators of one rank between them. -/
def row (first second : Operator) (operand : Grammar) : Grammar :=
  .apply fold (seq [operand,
    times .any (seq [.choice [operator first, operator second], operand])])

def expression : Grammar := .rule "expression"

def factor : Grammar :=
  .choice [integer int64, seq [spacedChar '(', expression, spacedChar ')']]

def term : Grammar := row .mul .div factor

def rules : Rules := ⟨[("expression", row .add .sub term)]⟩

def calculation : Language := ⟨rules, seq [allSpace, expression, allSpace]⟩

end PegParsing.Catalog.Arithmetic
