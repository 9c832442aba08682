import PegParsing.Parser.Basic
import PegParsing.Predicate
import PegParsing.Text.Case

/-!
# Parsers for single characters and fixed texts

These parsers either read what they ask for or fail where they started. Fixed texts are compared
byte by byte.
-/

namespace PegParsing.Parser

/-- The next character, if `accepts` holds of it. -/
def charIf (accepts : Char → Bool) : Parser Char := fun here stop =>
  match here.next? stop with
  | none => some (.failure here .unexpectedEof)
  | some (c, next) =>
    if accepts c then some (.success next c) else some (.failure here .unexpectedChar)

/-- The character `c` and no other. -/
def char (c : Char) : Parser Unit := (charIf (· == c)).skip

def digit : Parser Char := charIf Predicate.isDigit

/-- Succeeds where the window has come to its end. -/
def eof : Parser Unit := fun here stop =>
  if here.atEnd stop then some (.success here ()) else some (.failure here .expectedEof)

/-- The other half of a line end of two characters. -/
def lineEndPair? : Char → Option Char
  | '\n' => some '\r'
  | '\r' => some '\n'
  | _ => none

/-- Reads one line end: a line feed, a carriage return, or both in either order. Where nothing is
left to read the line ends too. -/
def eol : Parser Unit := fun here stop =>
  match here.next? stop with
  | none => some (.success here ())
  | some (c, next) =>
    match lineEndPair? c with
    | none => some (.failure here .expectedEndOfLine)
    | some pair =>
      match next.next? stop with
      | none => some (.success next ())
      | some (d, last) => some (.success (if d = pair then last else next) ())

/-! ## Fixed texts -/

/-- Reads as many bytes as `text` has, if they are its bytes but for case. -/
def literal (case : LetterCase) (text : List Char) : Parser Unit := fun here stop =>
  let want := Text.utf8 text
  let found := Text.utf8 (here.rest stop)
  if found.length < want.length then some (.failure here .unexpectedEof)
  else if case.foldAll (found.take want.length) = case.foldAll want then
    some (.success (here.advance want.length) ())
  else some (.failure here .expectedString)

end PegParsing.Parser
