import PegParsing.Cursor

/-!
# Marks

A row of cursors into one text, named by their numbers. New cursors are made from earlier ones and
added to the row; the first two are the start and the end of the text.
-/

namespace PegParsing

structure Marks where
  source : List Char
  cursors : Array Cursor

namespace Marks

inductive Command where
  | start
  | advance (i n : Nat)
  | take (i stop n : Nat)
  | next (i stop : Nat)
  | peek (i stop : Nat)
  | rest (i stop : Nat)
  | textTo (i j : Nat)
  | remaining (i stop : Nat)
  | atEnd (i stop : Nat)
  | source (i : Nat)
  | compare (i j : Nat)

inductive Answer where
  /-- A cursor was added, and perhaps a character read. -/
  | marked (c : Option Char) (cursor : Cursor)
  | char (c : Option Char)
  | text (cs : List Char)
  | count (n : Nat)
  | flag (b : Bool)
  /-- How two cursors lie to each other, and the later one. -/
  | compared (order : Ordering) (later : Cursor)

def ofText (text : List Char) : Marks := ⟨text, #[.start text, .finish text]⟩

/-- The cursor with a given number; the start of the text, if there is none. -/
def get (m : Marks) (i : Nat) : Cursor := m.cursors[i]?.getD (.start m.source)

def add (m : Marks) (c : Cursor) : Marks := { m with cursors := m.cursors.push c }

/-- Adds a cursor and answers with it. -/
def mark (m : Marks) (read : Option Char) (c : Cursor) : Marks × Answer :=
  (m.add c, .marked read c)

def step (m : Marks) : Command → Marks × Answer
  | .start => m.mark none (.start m.source)
  | .advance i n => m.mark none ((m.get i).advance n)
  | .take i stop n => m.mark none ((m.get i).take (m.get stop) n)
  | .next i stop =>
    match (m.get i).next? (m.get stop) with
    | none => (m, .char none)
    | some (c, next) => m.mark (some c) next
  | .peek i stop => (m, .char ((m.get i).peek (m.get stop)))
  | .rest i stop => (m, .text ((m.get i).rest (m.get stop)))
  | .textTo i j => (m, .text ((m.get i).textTo (m.get j)))
  | .remaining i stop => (m, .count ((m.get i).remaining (m.get stop)))
  | .atEnd i stop => (m, .flag ((m.get i).atEnd (m.get stop)))
  | .source i => (m, .text (m.get i).source)
  | .compare i j =>
    let order := (m.get i).order (m.get j)
    (m, .compared order (if order = .gt then m.get i else m.get j))

end Marks

end PegParsing
