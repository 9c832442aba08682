import PegParsing.Grammar.Language

/-!
# Sessions

A session reads a text piece by piece. It remembers where it stands and where the window ends,
cursors to come back to, and what repetitions have added to its two containers. Only a success
moves it; what was accepted before a failure stays in the container.
-/

namespace PegParsing

structure Session where
  here : Cursor
  stop : Cursor
  saved : List Cursor
  items : Array Value
  text : String

namespace Session

inductive Command where
  | parse (g : Grammar)
  /-- Adds what the items yield to the list. -/
  | into (bounds : Bounds) (separator item : Grammar)
  /-- Adds digits to the text. -/
  | digits (bounds : Bounds)
  | save
  | restore
  | take (n : Nat)
  | advance (n : Nat)
  /-- Ends the window `n` bytes behind the start of the text. -/
  | stopAt (n : Nat)
  | next
  | rest
  | atEnd

inductive Answer where
  | parsed (r : Parsed Value)
  | items (r : Parsed Unit) (all : List Value)
  | text (r : Parsed Unit) (all : String)
  | char (c : Option Char)
  | rest (cs : List Char)
  | atEnd (b : Bool)
  | done
  | nothingSaved

def ofText (text : List Char) : Session := ⟨.start text, .finish text, [], #[], ""⟩

/-- Goes to where a parse ended, if it succeeded. -/
def follow {α : Type} (s : Session) (r : Parsed α) : Session :=
  if r.isOk then { s with here := r.cursor } else s

def step (rules : Rules) (s : Session) : Command → Option (Session × Answer)
  | .parse g =>
    (Language.parser ⟨rules, g⟩ s.here s.stop).map fun r => (s.follow r, .parsed r)
  | .into bounds separator item =>
    let rule := rules.parsers s.here s.stop
    let repetition : Repetition Value := ⟨bounds, (separator.denote rule).skip, item.denote rule⟩
    (repetition.extend .list s.here s.stop s.items).map fun (all, r) =>
      ({ s with items := all }.follow r, .items r all.toList)
  | .digits bounds =>
    ((Parser.times bounds .digit).extend .text s.here s.stop s.text).map fun (all, r) =>
      ({ s with text := all }.follow r, .text r all)
  | .save => some ({ s with saved := s.here :: s.saved }, .done)
  | .restore =>
    match s.saved with
    | [] => some (s, .nothingSaved)
    | c :: cs => some ({ s with here := c, saved := cs }, .done)
  | .take n => some ({ s with here := s.here.take s.stop n }, .done)
  | .advance n => some ({ s with here := s.here.advance n }, .done)
  | .stopAt n => some ({ s with stop := (Cursor.start s.here.source).advance n }, .done)
  | .next =>
    match s.here.next? s.stop with
    | none => some (s, .char none)
    | some (c, next) => some ({ s with here := next }, .char (some c))
  | .rest => some (s, .rest (s.here.rest s.stop))
  | .atEnd => some (s, .atEnd (s.here.atEnd s.stop))

end Session

end PegParsing
