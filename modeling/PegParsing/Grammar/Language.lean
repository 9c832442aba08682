import PegParsing.Grammar.Basic

/-!
# Rules and languages

Rules give names to grammars, and grammars refer to rules by their names, so that rules may be
recursive. A language is a grammar together with its rules.

`Rules.parser` runs a rule on a limited supply of nested calls. `depth` is enough for rules that
are not left recursive: between two calls of one rule something must have been read, so no more
calls are under way at once than there are rules for each place in the window.
-/

namespace PegParsing

structure Rules where
  entries : List (String × Grammar)

namespace Rules

def none : Rules := ⟨[]⟩

/-- The grammar of a rule. -/
def find? (rules : Rules) (name : String) : Option Grammar :=
  (rules.entries.find? (·.1 = name)).map (·.2)

/-- The rule of a given name, with calls nested at most so deep. A name without a rule fails. -/
def parser (rules : Rules) : Nat → String → Parser Value
  | 0, _ => fun _ _ => .none
  | n + 1, name =>
    match rules.find? name with
    | some g => g.denote (rules.parser n)
    | .none => .failAt .unknown

def depth (rules : Rules) (here stop : Cursor) : Nat :=
  rules.entries.length * (here.remaining stop + 1) + 1

/-- All rules, as deep as a window may need. -/
def parsers (rules : Rules) (here stop : Cursor) : String → Parser Value :=
  rules.parser (rules.depth here stop)

end Rules

structure Language where
  rules : Rules
  start : Grammar

namespace Language

/-- A grammar without rules. -/
def ofGrammar (g : Grammar) : Language := ⟨.none, g⟩

def parser (l : Language) : Parser Value := fun here stop =>
  l.start.denote (l.rules.parsers here stop) here stop

end Language

end PegParsing
