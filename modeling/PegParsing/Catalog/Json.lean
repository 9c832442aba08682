import PegParsing.Grammar.Derived
import PegParsing.Grammar.Language

/-!
# JSON documents

A document is one value with white space around it. Strings have no escapes, a dictionary keeps
the last of several members with one key, and `null` yields nothing.
-/

namespace PegParsing.Catalog.Json

open Grammar

def value : Grammar := .rule "value"

def string : Grammar := seq [literal "\"", stringNoneOf "\"" .any, literal "\""]

/-- A number of 64 bits; infinities are no numbers. -/
def number : Grammar :=
  .terminal (.real { RealFormat.ofFormat .double with symbols := false })

def keyword : Grammar :=
  .choice [
    yielding (literal "true") (.bool true),
    yielding (literal "false") (.bool false),
    yielding (literal "null") .nothing]

def list : Grammar :=
  seq [spacedChar '[', .repetition .any (spacedChar ',') value, spacedChar ']']

def member : Grammar := seq [string, spacedChar ':', value]

def dict : Grammar :=
  seq [spacedChar '\x7b', .collect .dict .any (spacedChar ',') member, spacedChar '\x7d']

def rules : Rules := ⟨[("value", .choice [string, number, list, dict, keyword])]⟩

def document : Language := ⟨rules, seq [allSpace, value, allSpace]⟩

end PegParsing.Catalog.Json
