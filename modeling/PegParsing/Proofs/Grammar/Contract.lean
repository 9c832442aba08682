import PegParsing.Proofs.Grammar.LeftRecursion

/-!
# What a parse does to its window

A parse with rules that are not left recursive comes to an end, with a success or a failure, behind
whole characters of its window (`Language.parser_ends_in_window`). It depends on nothing but what the
window shows and on whether it has come to its end (`Language.parser_sees_only_window`): the text
before and behind it and the offsets do not matter.

Neither asks anything of the two cursors. They may be reversed, inside a character or beyond the text.
-/

namespace PegParsing

open Cursor

theorem Language.parser_ends_in_window {l : Language} (hrec : ¬ l.rules.LeftRecursive)
    (here stop : Cursor) :
    ∃ r, l.parser here stop = some r ∧
      (∃ p, p <+: here.rest stop ∧ r.cursor = here.advance (Text.byteLength p)) ∧
      here.offset ≤ r.cursor.offset ∧ r.cursor.offset ≤ max here.offset stop.offset ∧
      (here.rest stop = [] → r.cursor = here) ∧ (here.OnBorder → r.cursor.OnBorder) := by
  obtain ⟨r, hr⟩ := (l.finishes hrec : l.parser.Finishes here stop).exists
  have hreach : here.Reaches stop r.cursor := l.agrees.reaches hr
  exact ⟨r, hr, hreach, hreach.offset_le, hreach.offset_le_max, hreach.eq_of_rest_eq_nil,
    hreach.onBorder⟩

/-- A document read from behind its first character, which has two bytes. -/
theorem Catalog.Json.document_ends_in_window :
    let here : Cursor := ⟨"é[1]x".toList, 2⟩
    let stop : Cursor := ⟨"é[1]x".toList, 6⟩
    ¬ document.rules.LeftRecursive ∧ ∃ r, document.parser here stop = some r ∧
      (∃ p, p <+: here.rest stop ∧ r.cursor = here.advance (Text.byteLength p)) ∧
      here.offset ≤ r.cursor.offset ∧ r.cursor.offset ≤ max here.offset stop.offset ∧
      (here.rest stop = [] → r.cursor = here) ∧ (here.OnBorder → r.cursor.OnBorder) :=
  ⟨not_leftRecursive, Language.parser_ends_in_window not_leftRecursive _ _⟩

theorem Language.parser_sees_only_window {l : Language} (hrec : ¬ l.rules.LeftRecursive)
    {here₁ stop₁ here₂ stop₂ : Cursor} (hrest : here₁.rest stop₁ = here₂.rest stop₂)
    (hend : here₁.atEnd stop₁ = here₂.atEnd stop₂) :
    ∃ n outcome, l.parser here₁ stop₁ = some ⟨here₁.advance n, outcome⟩ ∧
      l.parser here₂ stop₂ = some ⟨here₂.advance n, outcome⟩ := by
  obtain ⟨⟨c₁, outcome⟩, h₁⟩ := (l.finishes hrec : l.parser.Finishes here₁ stop₁).exists
  obtain ⟨⟨c₂, outcome₂⟩, h₂⟩ := (l.finishes hrec : l.parser.Finishes here₂ stop₂).exists
  obtain ⟨rfl, p, -, rfl, rfl⟩ := l.agrees ⟨hrest, hend⟩ h₁ h₂
  exact ⟨Text.byteLength p, outcome, h₁, h₂⟩

/-- A document before another bracket, and the same document behind another letter. -/
theorem Catalog.Json.document_sees_only_window :
    let here₁ : Cursor := ⟨"[1]]".toList, 0⟩
    let stop₁ : Cursor := ⟨"[1]]".toList, 3⟩
    let here₂ : Cursor := ⟨"é[1]".toList, 2⟩
    let stop₂ : Cursor := ⟨"é[1]".toList, 5⟩
    ¬ document.rules.LeftRecursive ∧ here₁.rest stop₁ = here₂.rest stop₂ ∧
      here₁.atEnd stop₁ = here₂.atEnd stop₂ ∧
      ∃ n outcome, document.parser here₁ stop₁ = some ⟨here₁.advance n, outcome⟩ ∧
        document.parser here₂ stop₂ = some ⟨here₂.advance n, outcome⟩ :=
  ⟨not_leftRecursive, by decide +kernel, by decide +kernel,
    Language.parser_sees_only_window not_leftRecursive (by decide +kernel) (by decide +kernel)⟩

end PegParsing
