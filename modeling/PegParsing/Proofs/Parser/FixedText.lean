import PegParsing.Parser.Primitive
import PegParsing.Proofs.Cursor.Window
import PegParsing.Proofs.Text.Folding

/-!
# Reading a fixed text

A fixed text is compared with the window byte by byte, but the bytes that are compared are those of
whole characters: a fixed text is read just where the window shows characters that are the same but for
case, and then it reads these (`Parser.literal_eq_success_iff`). Otherwise it fails where it began.
-/

namespace PegParsing

variable {case : LetterCase} {text cs w s : List Char}

/-- As many bytes of a text as another has are its bytes but for case just if the text begins with the
other's characters but for case. -/
theorem LetterCase.foldAll_take_iff :
    case.foldAll ((Text.utf8 cs).take (Text.utf8 text).length) = case.foldAll (Text.utf8 text) ↔
      ∃ w s, cs = w ++ s ∧ w.map case.foldChar = text.map case.foldChar := by
  constructor
  · intro h
    have hsplit : case.foldAll (Text.utf8 cs) = case.foldAll (Text.utf8 text) ++
        case.foldAll ((Text.utf8 cs).drop (Text.utf8 text).length) := by
      rw [← h, ← foldAll_append, List.take_append_drop]
    obtain ⟨w, s, hcs, hw, -⟩ := exists_append_of_foldAll hsplit
    exact ⟨w, s, hcs, hw⟩
  · rintro ⟨w, s, rfl, hw⟩
    have hlen : (Text.utf8 w).length = (Text.utf8 text).length := by
      rw [Text.length_utf8, Text.length_utf8, ← case.byteLength_map_foldChar, hw,
        case.byteLength_map_foldChar]
    rw [Text.utf8_append, List.take_left' hlen, foldAll_utf8, foldAll_utf8, hw]

namespace Parser

open Cursor

variable {here stop c : Cursor}

/-- What is found where a fixed text is asked for: too few bytes, or others. -/
def missing (text cs : List Char) : ErrorCode :=
  if Text.byteLength cs < Text.byteLength text then .unexpectedEof else .expectedString

theorem literal_of_shown (hrest : here.rest stop = w ++ s)
    (hw : w.map case.foldChar = text.map case.foldChar) :
    literal case text here stop = some (.success (here.advance (Text.byteLength w)) ()) := by
  have hlen : Text.byteLength w = Text.byteLength text := by
    rw [← case.byteLength_map_foldChar, hw, case.byteLength_map_foldChar]
  have hlong : ¬ (Text.utf8 (here.rest stop)).length < (Text.utf8 text).length := by
    rw [Text.length_utf8, Text.length_utf8, hrest, Text.byteLength_append]
    omega
  unfold literal
  rw [if_neg hlong, if_pos (LetterCase.foldAll_take_iff.2 ⟨w, s, hrest, hw⟩), Text.length_utf8, hlen]

theorem literal_of_not_shown
    (h : ∀ w s, here.rest stop = w ++ s → w.map case.foldChar ≠ text.map case.foldChar) :
    literal case text here stop = some (.failure here (missing text (here.rest stop))) := by
  have hfold : ¬ case.foldAll ((Text.utf8 (here.rest stop)).take (Text.utf8 text).length) =
      case.foldAll (Text.utf8 text) := by
    rw [LetterCase.foldAll_take_iff]
    rintro ⟨w, s, hrest, hw⟩
    exact h w s hrest hw
  unfold literal missing
  simp only [Text.length_utf8] at hfold ⊢
  rw [if_neg hfold]
  split <;> rfl

/-- A fixed text is read, or it is missing where it was asked for. -/
theorem literal_cases (case : LetterCase) (text : List Char) (here stop : Cursor) :
    (∃ w s, here.rest stop = w ++ s ∧ w.map case.foldChar = text.map case.foldChar ∧
      literal case text here stop = some (.success (here.advance (Text.byteLength w)) ())) ∨
    ((∀ w s, here.rest stop = w ++ s → w.map case.foldChar ≠ text.map case.foldChar) ∧
      literal case text here stop = some (.failure here (missing text (here.rest stop)))) := by
  by_cases h : ∃ w s, here.rest stop = w ++ s ∧ w.map case.foldChar = text.map case.foldChar
  · obtain ⟨w, s, hrest, hw⟩ := h
    exact .inl ⟨w, s, hrest, hw, literal_of_shown hrest hw⟩
  · have hno : ∀ w s, here.rest stop = w ++ s → w.map case.foldChar ≠ text.map case.foldChar :=
      fun w s hrest hw => h ⟨w, s, hrest, hw⟩
    exact .inr ⟨hno, literal_of_not_shown hno⟩

/-- A fixed text is read just where the window shows its characters but for case. -/
theorem literal_eq_success_iff {u : Unit} : literal case text here stop = some (.success c u) ↔
    ∃ w s, here.rest stop = w ++ s ∧ w.map case.foldChar = text.map case.foldChar ∧
      c = here.advance (Text.byteLength w) := by
  constructor
  · intro hc
    obtain ⟨w, s, hrest, hw, hread⟩ | ⟨-, hmissing⟩ := literal_cases case text here stop
    · cases hc.symm.trans hread
      exact ⟨w, s, hrest, hw, rfl⟩
    · cases hc.symm.trans hmissing
  · rintro ⟨w, s, hrest, hw, rfl⟩
    exact literal_of_shown hrest hw

end Parser

end PegParsing
