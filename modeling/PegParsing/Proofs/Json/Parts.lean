import PegParsing.Proofs.Grammar.Gathering
import PegParsing.Proofs.Grammar.Nullable
import PegParsing.Proofs.Json.Syntax

/-!
# The parsers of the parts of JSON documents

What the grammars of strings, lists, members and dictionaries denote, as parsers one behind the other.
Only one rule is referred to, so that each of them is known once the parser of values is.
-/

namespace PegParsing

open PegParsing.Parser

namespace Grammar

/-- Three parts one behind the other. -/
theorem denote_seq_three (R : String → Parser Value) (a b c : Grammar) :
    (seq [a, b, c]).denote R = (a.denote R).bind fun u => (b.denote R).bind fun v =>
      (c.denote R).map fun w =>
        .ofPayload (a.kind.collect u (b.kind.collect v (c.kind.collect w []))) := by
  show (Parser.sequence (denote R empty) (parts R [a, b, c])).map Value.ofPayload = _
  have hempty : denote R empty = succeed .nothing := rfl
  rw [parts_eq_map, hempty]
  simp only [List.map_cons, List.map_nil, Parser.sequence, sequenceTail, succeed_bind, map_eq_bind,
    bind_assoc]

end Grammar

/-! ## Containers -/

namespace Collection

theorem foldl_pushEntry_map (es : List (String × Value)) :
    (es.map fun e => Value.tuple [.str e.1, e.2]).foldl pushEntry [] = Dict.ofList es :=
  List.foldl_map

end Collection

/-! ## The parts -/

namespace Catalog.Json

/-- The characters of a string. -/
def characters : Repetition Value :=
  ⟨.any, (Terminal.ofSkip .empty).skip, (charIf fun c => !"\"".toList.contains c).map .char⟩

/-- White space, character by character. -/
def spaces : Repetition Value :=
  ⟨.any, (Terminal.ofSkip .empty).skip, Terminal.ofSkip ((charIf Predicate.isSpace).map Value.char).skip⟩

/-- Items with commas between them. -/
def row (item : Parser Value) : Repetition Value :=
  ⟨.any, (Terminal.ofSkip (spacedChar ',')).skip, item⟩

theorem not_quote_iff {c : Char} : (!"\"".toList.contains c) = true ↔ c ≠ '"' := by
  simp

theorem agrees_characters : characters.Agrees characters :=
  ⟨rfl, (agrees_empty.map _).skip, (agrees_charIf _).map _⟩

theorem agrees_spaces : spaces.Agrees spaces :=
  ⟨rfl, (agrees_empty.map _).skip, (((agrees_charIf _).map _).skip.map _)⟩

theorem agrees_row {item : Parser Value} (h : item.Agrees item) : (row item).Agrees (row item) :=
  ⟨rfl, ((agrees_spacedChar ',').map _).skip, h⟩

theorem denote_string (R : String → Parser Value) :
    string.denote R = (Terminal.ofSkip (literal .exact ['"'])).bind fun _ =>
      (Collection.text.collect characters).bind fun v =>
        (Terminal.ofSkip (literal .exact ['"'])).map fun _ => v :=
  Grammar.denote_seq_three R _ _ _

theorem denote_list (R : String → Parser Value) :
    list.denote R = (Terminal.ofSkip (spacedChar '[')).bind fun _ =>
      ((row (R "value")).list.map .list).bind fun v =>
        (Terminal.ofSkip (spacedChar ']')).map fun _ => v :=
  Grammar.denote_seq_three R _ _ _

theorem denote_member (R : String → Parser Value) :
    member.denote R = (string.denote R).bind fun k =>
      (Terminal.ofSkip (spacedChar ':')).bind fun _ => (R "value").map fun v => .tuple [k, v] :=
  Grammar.denote_seq_three R _ _ _

theorem denote_dict (R : String → Parser Value) :
    dict.denote R = (Terminal.ofSkip (spacedChar '\x7b')).bind fun _ =>
      (Collection.dict.collect (row (member.denote R))).bind fun v =>
        (Terminal.ofSkip (spacedChar '\x7d')).map fun _ => v :=
  Grammar.denote_seq_three R _ _ _

theorem denote_allSpace (R : String → Parser Value) :
    Grammar.allSpace.denote R = Terminal.ofSkip spaces.skip := rfl

theorem denote_document (R : String → Parser Value) :
    document.start.denote R = (Grammar.allSpace.denote R).bind fun _ => (R "value").bind fun v =>
      (Grammar.allSpace.denote R).map fun _ => v :=
  Grammar.denote_seq_three R _ _ _

/-- The parser of values, in terms of those with fewer nested calls. -/
theorem parser_succ (n : Nat) :
    rules.parser (n + 1) "value" = choice [string.denote (rules.parser n), number.denote (rules.parser n),
      list.denote (rules.parser n), dict.denote (rules.parser n), keyword.denote (rules.parser n)] :=
  rfl

end Catalog.Json

end PegParsing
