import PegParsing.Proofs.Grammar.LeftRecursion
import PegParsing.Value.Equality

/-!
# How much of a supply is enough

A parse runs on two supplies: of calls of rules nested in each other, and, in each repetition, of
rounds. `Language.parse_of_supplies` says that without left recursion both are bounded by the grammar
and the length of the window alone. On more nested calls than there are rules for each place in the
window every parse has one and the same result, a success or a failure; on fewer calls it has that
result or does not finish. More rounds than the window has bytes and the lower bound has items do not
change what a repetition does.

The measure behind it is that of `Rules.finishes`: where something has been read, the window is
smaller, and where nothing has been read, the rules under way are all different.
-/

namespace PegParsing

open Cursor PegParsing.Parser

variable {l : Language}

/-- A language that finishes on some nested calls has no other result on any number of them. -/
theorem Language.eq_of_parser_eq_some {here stop : Cursor} {r s : Parsed Value} {n : Nat}
    (hr : l.parser here stop = some r)
    (hs : l.start.denote (l.rules.parser n) here stop = some s) : s = r := by
  have hagrees := l.start.agrees (l.rules.agrees n (l.rules.depth here stop))
  exact Agrees.eq hagrees hs hr

theorem Language.parse_of_supplies (hrec : ¬ l.rules.LeftRecursive) (here stop : Cursor) :
    (∃ r, l.parser here stop = some r ∧
      (∀ calls, l.rules.entries.length * (here.remaining stop + 1) < calls →
        l.start.denote (l.rules.parser calls) here stop = some r) ∧
      ∀ calls s, l.start.denote (l.rules.parser calls) here stop = some s → s = r) ∧
    ∀ (calls rounds : Nat) (b : Bounds) (sep item : Grammar) {σ : Type} (into : Container Value σ)
      (acc : σ),
      let r : Repetition Value :=
        ⟨b, (sep.denote (l.rules.parser calls)).skip, item.denote (l.rules.parser calls)⟩
      here.remaining stop + max b.min 1 < rounds →
        r.drive into.push stop rounds 0 here acc = r.extend into here stop acc := by
  constructor
  · obtain ⟨r, hr⟩ := (l.finishes hrec : l.parser.Finishes here stop).exists
    refine ⟨r, hr, fun calls hcalls => ?_, fun calls s hs => l.eq_of_parser_eq_some hr hs⟩
    obtain ⟨s, hs⟩ := (Rules.finishes_denote hrec l.start hcalls).exists
    rw [hs, l.eq_of_parser_eq_some hr hs]
  · intro calls rounds b sep item σ into acc r hrounds
    have hrules := l.rules.agrees calls calls
    have hr : r.Agrees r := ⟨rfl, (sep.agrees hrules).skip, item.agrees hrules⟩
    exact Repetition.drive_eq_extend (hr.forward stop) acc hrounds

/-- A list in a list, read on any number of nested calls that is larger than 10. -/
theorem Catalog.Json.document_of_supplies :
    let text := "[[],null]".toList
    ¬ document.rules.LeftRecursive ∧ ∀ calls, 10 < calls →
      document.start.denote (document.rules.parser calls) (start text) (finish text) =
        some (.success (finish text) (.list [.list [], .nothing])) := by
  intro text
  refine ⟨not_leftRecursive, fun calls hcalls => ?_⟩
  obtain ⟨⟨r, hr, hall, -⟩, -⟩ :=
    Language.parse_of_supplies not_leftRecursive (start text) (finish text)
  have hvalue : document.parser (start text) (finish text) =
      some (.success (finish text) (.list [.list [], .nothing])) := by decide +kernel
  rw [hall calls hcalls, ← hr, hvalue]

end PegParsing
