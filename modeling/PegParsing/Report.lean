import PegParsing.Grammar.Language
import PegParsing.Value.Equality

/-!
# Reports

A report says what became of a whole text: it matched, a part of it matched, or it did not match
and where. What is left of the text is part of the report.
-/

namespace PegParsing

inductive Report (α : Type) where
  /-- All of the text was read. -/
  | complete (v : α)
  /-- The parser stopped before the end of the text. -/
  | stopped (v : α) (rest : List Char)
  | failed (code : ErrorCode) (offset : Nat) (rest : List Char)
  deriving DecidableEq

namespace Report

variable {α : Type}

def isComplete : Report α → Bool
  | complete _ => true
  | _ => false

def value? : Report α → Option α
  | complete v => some v
  | stopped v _ => some v
  | failed .. => none

/-- The report on a parse of the window that ends at `stop`. -/
def ofParsed (stop : Cursor) : Parsed α → Report α
  | ⟨c, .ok v⟩ => if c.atEnd stop then complete v else stopped v (c.rest stop)
  | ⟨c, .error code⟩ => failed code c.offset (c.rest stop)

end Report

/-- Runs a parser from the start of a text. -/
def Parser.report {α : Type} (p : Parser α) (text : List Char) : Option (Report α) :=
  (p (.start text) (.finish text)).map (Report.ofParsed (.finish text))

def Language.report (l : Language) (text : List Char) : Option (Report Value) :=
  l.parser.report text

end PegParsing
