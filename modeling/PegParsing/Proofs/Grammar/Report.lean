import PegParsing.Proofs.Grammar.Capture
import PegParsing.Proofs.Grammar.Contract
import PegParsing.Report

/-!
# What a report accounts for

A report on a text tells of every byte of it. Either all of it was read, or the text is what was read
and the part that is left, which is not empty, or it is what stands before the place of the failure
and what stands behind it (`Language.report_accounts`). There is a report on every text unless the rules
are left recursive.

All three come from one fact, that a place reached from the start of a text cuts the text in two
(`Cursor.Reaches.cut`).
-/

namespace PegParsing

open Cursor

/-! ## Places in a text -/

theorem Cursor.atEnd_finish_eq_false_iff {text : List Char} {c : Cursor} :
    c.atEnd (finish text) = false ↔ c.offset < Text.byteLength text :=
  decide_eq_false_iff_not.trans Nat.not_le

namespace Cursor.Reaches

variable {text : List Char} {c : Cursor}

/-- A place in a text stands behind the part that was read and before the part that is left. -/
theorem cut (h : (start text).Reaches (finish text) c) :
    text = (start text).textTo c ++ c.rest (finish text) ∧
      c = ⟨text, Text.byteLength ((start text).textTo c)⟩ := by
  obtain ⟨hread, hc⟩ := h.textTo_spec
  have hrest := rest_advance_of_prefix hread
  rw [← hc, rest_start] at hrest
  refine ⟨hrest.symm, hc.trans ?_⟩
  unfold advance start
  rw [Nat.zero_add]

/-- What was read are the first bytes of the text, as many as the offset of the place says. -/
theorem takeBytes?_eq (h : (start text).Reaches (finish text) c) :
    Text.takeBytes? c.offset text = some ((start text).textTo c) := by
  obtain ⟨htext, hc⟩ := h.cut
  have htake := Text.takeBytes?_append ((start text).textTo c) (c.rest (finish text))
  have hoffset : c.offset = Text.byteLength ((start text).textTo c) := congrArg offset hc
  rwa [← htext, ← hoffset] at htake

/-- The place is the end of the text just if nothing is left. -/
theorem atEnd_iff (h : (start text).Reaches (finish text) c) :
    c.atEnd (finish text) = true ↔ c.offset = Text.byteLength text := by
  have hle : c.offset ≤ max 0 (Text.byteLength text) := h.offset_le_max
  unfold atEnd
  rw [decide_eq_true_eq]
  show Text.byteLength text ≤ c.offset ↔ _
  omega

theorem rest_ne_nil (h : (start text).Reaches (finish text) c)
    (hlt : c.offset < Text.byteLength text) : c.rest (finish text) ≠ [] := by
  intro hnil
  obtain ⟨htext, hc⟩ := h.cut
  rw [hnil, List.append_nil] at htext
  rw [hc, ← htext] at hlt
  exact Nat.lt_irrefl _ hlt

end Cursor.Reaches

/-! ## Reports -/

section Report

variable {α : Type} {p : Parser α} {text rest : List Char} {v : α} {code : ErrorCode} {offset : Nat}

/-- The report tells a value if all of the text was read. -/
theorem Parser.report_eq_complete : p.report text = some (.complete v) ↔
    ∃ c, p (.start text) (.finish text) = some (.success c v) ∧ c.atEnd (.finish text) = true := by
  constructor
  · intro h
    obtain ⟨⟨c, code | u⟩, hp, h⟩ := Option.map_eq_some_iff.1 h
    · cases h
    unfold Report.ofParsed at h
    dsimp only at h
    by_cases hend : c.atEnd (.finish text) = true
    · rw [if_pos hend] at h
      cases h
      exact ⟨c, hp, hend⟩
    · rw [if_neg hend] at h
      cases h
  · rintro ⟨c, hp, hend⟩
    unfold Parser.report
    rw [hp]
    exact congrArg some (if_pos hend)

theorem Parser.report_eq_stopped : p.report text = some (.stopped v rest) ↔
    ∃ c, p (.start text) (.finish text) = some (.success c v) ∧ c.atEnd (.finish text) = false ∧
      c.rest (.finish text) = rest := by
  constructor
  · intro h
    obtain ⟨⟨c, code | u⟩, hp, h⟩ := Option.map_eq_some_iff.1 h
    · cases h
    unfold Report.ofParsed at h
    dsimp only at h
    by_cases hend : c.atEnd (.finish text) = true
    · rw [if_pos hend] at h
      cases h
    · rw [if_neg hend] at h
      cases h
      exact ⟨c, hp, Bool.eq_false_iff.2 hend, rfl⟩
  · rintro ⟨c, hp, hend, rfl⟩
    unfold Parser.report
    rw [hp]
    exact congrArg some (if_neg (Bool.eq_false_iff.1 hend))

theorem Parser.report_eq_failed : p.report text = some (.failed code offset rest) ↔
    ∃ c, p (.start text) (.finish text) = some (.failure c code) ∧ c.offset = offset ∧
      c.rest (.finish text) = rest := by
  constructor
  · intro h
    obtain ⟨⟨c, other | u⟩, hp, h⟩ := Option.map_eq_some_iff.1 h
    · cases h
      exact ⟨c, hp, rfl, rfl⟩
    · unfold Report.ofParsed at h
      dsimp only at h
      split at h <;> cases h
  · rintro ⟨c, hp, rfl, rfl⟩
    unfold Parser.report
    rw [hp]
    rfl

end Report

/-- There is a report on every text. It is complete if the parse reads all of the text; it tells what
is left, which is not empty and stands behind the captured text, if the parse succeeds earlier; and
otherwise it tells of a failure on a border of characters, and of the text from there on. -/
theorem Language.report_accounts {l : Language} (hrec : ¬ l.rules.LeftRecursive) (text : List Char) :
    let parse := l.parser (.start text) (.finish text)
    let captured := (⟨l.rules, .raw l.start⟩ : Language).parser (.start text) (.finish text)
    (∃ r, l.report text = some r) ∧
      (∀ v, l.report text = some (.complete v) ↔
        ∃ c, parse = some (.success c v) ∧ c.offset = Text.byteLength text) ∧
      (∀ v, (∃ rest, l.report text = some (.stopped v rest)) ↔
        ∃ c, parse = some (.success c v) ∧ c.offset < Text.byteLength text) ∧
      (∀ v rest, l.report text = some (.stopped v rest) → rest ≠ [] ∧
        ∃ c w, parse = some (.success c v) ∧ captured = some (.success c (.str (String.ofList w))) ∧
          text = w ++ rest) ∧
      ((∃ code offset rest, l.report text = some (.failed code offset rest)) ↔
        ∀ c v, parse ≠ some (.success c v)) ∧
      ∀ code offset rest, l.report text = some (.failed code offset rest) →
        parse = some (.failure ⟨text, offset⟩ code) ∧ offset ≤ Text.byteLength text ∧
          (⟨text, offset⟩ : Cursor).OnBorder ∧
          ∃ w, Text.takeBytes? offset text = some w ∧ text = w ++ rest := by
  intro parse captured
  obtain ⟨r, hr⟩ := (l.finishes hrec : l.parser.Finishes (.start text) (.finish text)).exists
  have hreaches : ∀ {r}, parse = some r → (Cursor.start text).Reaches (.finish text) r.cursor :=
    fun h => l.agrees.reaches h
  refine ⟨⟨_, congrArg (Option.map _) hr⟩, fun v => ?_, fun v => ?_, fun v rest h => ?_, ?_,
    fun code offset rest h => ?_⟩
  · refine Parser.report_eq_complete.trans (exists_congr fun c => and_congr_right fun h => ?_)
    exact (hreaches h).atEnd_iff
  · constructor
    · rintro ⟨rest, h⟩
      obtain ⟨c, hc, hend, -⟩ := Parser.report_eq_stopped.1 h
      exact ⟨c, hc, atEnd_finish_eq_false_iff.1 hend⟩
    · rintro ⟨c, hc, hlt⟩
      exact ⟨_, Parser.report_eq_stopped.2 ⟨c, hc, atEnd_finish_eq_false_iff.2 hlt, rfl⟩⟩
  · obtain ⟨c, hc, hend, rfl⟩ := Parser.report_eq_stopped.1 h
    refine ⟨(hreaches hc).rest_ne_nil (atEnd_finish_eq_false_iff.1 hend), c, _, hc,
      Grammar.denote_raw_eq_text.2 ⟨⟨v, hc⟩, rfl⟩, (hreaches hc).cut.1⟩
  · constructor
    · rintro ⟨code, offset, rest, h⟩ c v hc
      obtain ⟨d, hd, -⟩ := Parser.report_eq_failed.1 h
      cases hc.symm.trans hd
    · intro hnone
      rcases r with ⟨c, code | v⟩
      · exact ⟨code, _, _, Parser.report_eq_failed.2 ⟨c, hr, rfl, rfl⟩⟩
      · exact absurd hr (hnone c v)
  · obtain ⟨c, hc, rfl, rfl⟩ := Parser.report_eq_failed.1 h
    have hreach : (Cursor.start text).Reaches (.finish text) c := hreaches hc
    have hle : c.offset ≤ max 0 (Text.byteLength text) := hreach.offset_le_max
    have hsource : (⟨text, c.offset⟩ : Cursor) = c := by rw [hreach.cut.2]
    rw [hsource]
    exact ⟨hc, by omega, hreach.onBorder ⟨[], text, rfl, rfl⟩, _, hreach.takeBytes?_eq,
      hreach.cut.1⟩

/-- A document with more behind it. -/
theorem Catalog.Json.document_report_accounts :
    let text := "[1] x".toList
    let parse := document.parser (.start text) (.finish text)
    let captured :=
      (⟨document.rules, .raw document.start⟩ : Language).parser (.start text) (.finish text)
    ¬ document.rules.LeftRecursive ∧ (∃ r, document.report text = some r) ∧
      (∀ v, document.report text = some (.complete v) ↔
        ∃ c, parse = some (.success c v) ∧ c.offset = Text.byteLength text) ∧
      (∀ v, (∃ rest, document.report text = some (.stopped v rest)) ↔
        ∃ c, parse = some (.success c v) ∧ c.offset < Text.byteLength text) ∧
      (∀ v rest, document.report text = some (.stopped v rest) → rest ≠ [] ∧
        ∃ c w, parse = some (.success c v) ∧ captured = some (.success c (.str (String.ofList w))) ∧
          text = w ++ rest) ∧
      ((∃ code offset rest, document.report text = some (.failed code offset rest)) ↔
        ∀ c v, parse ≠ some (.success c v)) ∧
      ∀ code offset rest, document.report text = some (.failed code offset rest) →
        parse = some (.failure ⟨text, offset⟩ code) ∧ offset ≤ Text.byteLength text ∧
          (⟨text, offset⟩ : Cursor).OnBorder ∧
          ∃ w, Text.takeBytes? offset text = some w ∧ text = w ++ rest :=
  ⟨not_leftRecursive, Language.report_accounts not_leftRecursive _⟩

end PegParsing
