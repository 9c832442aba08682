import PegParsing.Grammar.Basic

/-!
# Grammars made of others
-/

namespace PegParsing.Grammar

def empty : Grammar := .terminal .empty

def literal (text : String) : Grammar := .terminal (.literal .exact text)

def literalNoCase (text : String) : Grammar := .terminal (.literal .ignored text)

def char (c : Char) : Grammar := .terminal (.char c)

def charIf (accepts : Char → Bool) : Grammar := .terminal (.charIf accepts)

/-- One of the characters of `set`. -/
def charFrom (set : String) : Grammar := charIf fun c => set.toList.contains c

def anyChar : Grammar := charIf fun _ => true

def digit : Grammar := charIf Predicate.isDigit

def space : Grammar := charIf Predicate.isSpace

def lineSpace : Grammar := charIf Predicate.isLineSpace

def spacedChar (c : Char) : Grammar := .terminal (.spacedChar c)

def integer (type : IntType) : Grammar := .terminal (.integer (.ofType type))

def real (format : BinaryFormat) : Grammar := .terminal (.real (.ofFormat format))

/-! ## Sequences and choices -/

/-- The parts one behind the other. -/
def seq (parts : List Grammar) : Grammar := .sequence empty parts

/-- One more part at the end of a sequence. -/
def append : Grammar → Grammar → Grammar
  | .sequence separator parts, g => .sequence separator (parts ++ [g])
  | h, g => seq [h, g]

/-- Yields `v` in place of the value of `g`. -/
def yielding (g : Grammar) (v : Value) : Grammar := .map (fun _ => v) g

/-- A sequence of parsers whose values are of one sort, as a list. -/
def toVec (parts : List Grammar) : Grammar := .map .toVec (seq parts)

/-- A choice whose values are brought into one type. -/
def choiceConverted (alternatives : List Grammar) : Grammar := .map .converted (.choice alternatives)

/-- Succeeds without reading anything where `must` succeeds. -/
def lookahead (must : Grammar) : Grammar := .onlyWhere must empty

/-- Succeeds without reading anything where `non` fails. -/
def reject (non : Grammar) : Grammar := .exceptWhere non empty

/-- Zero and one, or the words in any case. -/
def boolean : Grammar :=
  .choice [
    yielding (char '0') (.bool false),
    yielding (char '1') (.bool true),
    yielding (literalNoCase "false") (.bool false),
    yielding (literalNoCase "true") (.bool true)]

/-! ## Repetitions -/

def times (bounds : Bounds) (g : Grammar) : Grammar := .repetition bounds empty g

/-- All white space that follows. -/
def allSpace : Grammar := times .any (.skip space)

/-- All white space that follows on the line. -/
def allLineSpace : Grammar := times .any (.skip lineSpace)

/-- Characters that `accepts` holds of, as a text. -/
def word (bounds : Bounds) (accepts : Char → Bool) : Grammar :=
  .collect .text bounds empty (charIf accepts)

/-- Characters of `set`. -/
def stringOf (set : String) (bounds : Bounds) : Grammar :=
  .collect .text bounds empty (charFrom set)

/-- Characters that are not in `set`. -/
def stringNoneOf (set : String) (bounds : Bounds) : Grammar :=
  word bounds fun c => !set.toList.contains c

end PegParsing.Grammar
