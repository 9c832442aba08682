import PegParsing.Proofs.Grammar.Report
import PegParsing.Proofs.Json.Completeness
import PegParsing.Proofs.Json.Soundness

/-!
# JSON documents

The parser of JSON documents reads all of a text just if the text is a way to write a value, with white
space around it, and it is that value that it reports (`report_eq_complete_iff`).
-/

namespace PegParsing.Catalog.Json

open PegParsing.Parser Cursor

variable {text : List Char} {v : Value}

theorem length_le_byteLength (text : List Char) : text.length ≤ Text.byteLength text := by
  induction text with
  | nil => exact Nat.le_refl 0
  | cons c text ih =>
    have hpos := c.utf8Size_pos
    rw [List.length_cons, Text.byteLength_cons]
    omega

theorem report_eq_complete_iff : document.report text = some (.complete v) ↔ Document text v := by
  constructor
  · intro h
    obtain ⟨c, hp, hend⟩ := report_eq_complete.1 h
    obtain ⟨w, ⟨s, hs⟩, rfl, hw⟩ := reads_document _ hp
    have hrest := rest_advance hs.symm
    rw [rest_of_atEnd hend] at hrest
    rwa [← rest_start text, ← hs, ← hrest, List.append_nil]
  · intro h
    -- with one rule, calls may be nested once for each byte of the text, and twice more
    have hdepth : text.length ≤ 1 * (Text.byteLength text + 1) := by
      have hle := length_le_byteLength text
      omega
    obtain ⟨c, hp, hrest⟩ := accepts_document h hdepth (rest_start text)
    obtain ⟨w, ⟨s, hs⟩, rfl, -⟩ := reads_document _ hp
    have hleft := rest_advance hs.symm
    rw [hrest] at hleft
    rw [← hleft, List.append_nil, rest_start] at hs
    refine report_eq_complete.2 ⟨_, hp, ?_⟩
    rw [hs]
    exact decide_eq_true (Nat.le_add_left _ _)

end PegParsing.Catalog.Json
