import PegParsing.Grammar.Basic
import PegParsing.Proofs.Parser.FixedText
import PegParsing.Proofs.Parser.Repetition
import PegParsing.Proofs.Symbol.LongestMatch

/-!
# Parsers look at their windows alone

Each parser that grammars are built from agrees with itself: on windows that show the same it ends
with the same outcome, behind the same part of what they show. For the parsers that compare bytes
this says more than it seems to. They move by the length of a text or of a key, and that this is the
length of whole characters of the window is what `literal_cases` and
`LetterCase.exists_append_of_foldAll` are about.
-/

namespace PegParsing

open Cursor

/-! ## Single characters -/

/-- In windows that show the same, the same character comes next or none does. -/
theorem Cursor.ShowsSame.next?_cases {here₁ stop₁ here₂ stop₂ : Cursor}
    (h : ShowsSame here₁ stop₁ here₂ stop₂) :
    (here₁.next? stop₁ = none ∧ here₂.next? stop₂ = none) ∨
      ∃ c next₁ next₂, here₁.next? stop₁ = some (c, next₁) ∧ here₂.next? stop₂ = some (c, next₂) ∧
        InStep stop₁ here₁ here₂ next₁ next₂ := by
  unfold next? peek
  rw [← h.rest]
  cases hrest : here₁.rest stop₁ with
  | nil => exact .inl ⟨rfl, rfl⟩
  | cons c cs =>
    refine .inr ⟨c, _, _, rfl, rfl, [c], ?_, rfl, rfl⟩
    rw [hrest]
    exact ⟨cs, rfl⟩

namespace Parser

theorem agrees_charIf (accepts : Char → Bool) : (charIf accepts).Agrees (charIf accepts) := by
  intro here₁ stop₁ here₂ stop₂ hs r₁ r₂ h₁ h₂
  unfold charIf at h₁ h₂
  rcases hs.next?_cases with ⟨hn₁, hn₂⟩ | ⟨c, next₁, next₂, hn₁, hn₂, hnext⟩
  · rw [hn₁] at h₁
    rw [hn₂] at h₂
    cases h₁
    cases h₂
    exact ⟨rfl, InStep.refl _ _ _⟩
  · rw [hn₁] at h₁
    rw [hn₂] at h₂
    simp only at h₁ h₂
    cases hc : accepts c with
    | true =>
      rw [hc, if_pos rfl] at h₁ h₂
      cases h₁
      cases h₂
      exact ⟨rfl, hnext⟩
    | false =>
      rw [hc, if_neg Bool.false_ne_true] at h₁ h₂
      cases h₁
      cases h₂
      exact ⟨rfl, InStep.refl _ _ _⟩

theorem agrees_char (c : Char) : (char c).Agrees (char c) := (agrees_charIf _).skip

theorem agrees_eof : eof.Agrees eof := by
  intro here₁ stop₁ here₂ stop₂ hs r₁ r₂ h₁ h₂
  unfold eof at h₁ h₂
  rw [← hs.atEnd] at h₂
  cases hend : here₁.atEnd stop₁ with
  | true =>
    rw [hend, if_pos rfl] at h₁ h₂
    cases h₁
    cases h₂
    exact ⟨rfl, InStep.refl _ _ _⟩
  | false =>
    rw [hend, if_neg Bool.false_ne_true] at h₁ h₂
    cases h₁
    cases h₂
    exact ⟨rfl, InStep.refl _ _ _⟩

theorem agrees_eol : eol.Agrees eol := by
  intro here₁ stop₁ here₂ stop₂ hs r₁ r₂ h₁ h₂
  unfold eol at h₁ h₂
  rcases hs.next?_cases with ⟨hn₁, hn₂⟩ | ⟨c, next₁, next₂, hn₁, hn₂, hnext⟩
  · rw [hn₁] at h₁
    rw [hn₂] at h₂
    cases h₁
    cases h₂
    exact ⟨rfl, InStep.refl _ _ _⟩
  rw [hn₁] at h₁
  rw [hn₂] at h₂
  simp only at h₁ h₂
  cases hpair : lineEndPair? c with
  | none =>
    rw [hpair] at h₁ h₂
    cases h₁
    cases h₂
    exact ⟨rfl, InStep.refl _ _ _⟩
  | some pair =>
    rw [hpair] at h₁ h₂
    simp only at h₁ h₂
    rcases (hs.inStep hnext).next?_cases with ⟨hl₁, hl₂⟩ | ⟨d, last₁, last₂, hl₁, hl₂, hlast⟩
    · rw [hl₁] at h₁
      rw [hl₂] at h₂
      cases h₁
      cases h₂
      exact ⟨rfl, hnext⟩
    · rw [hl₁] at h₁
      rw [hl₂] at h₂
      cases h₁
      cases h₂
      refine ⟨rfl, ?_⟩
      by_cases hd : d = pair
      · simp only [Parsed.success, if_pos hd]
        exact hnext.trans hlast
      · simp only [Parsed.success, if_neg hd]
        exact hnext

/-! ## Fixed texts and symbols -/

theorem agrees_literal (case : LetterCase) (text : List Char) :
    (literal case text).Agrees (literal case text) := by
  intro here₁ stop₁ here₂ stop₂ hs r₁ r₂ h₁ h₂
  obtain ⟨w, s, hrest, hw, hread⟩ | ⟨hno, hmissing⟩ := literal_cases case text here₁ stop₁
  · cases h₁.symm.trans hread
    cases h₂.symm.trans (literal_of_shown (hs.rest ▸ hrest) hw)
    exact ⟨rfl, w, ⟨s, hrest.symm⟩, rfl, rfl⟩
  · cases h₁.symm.trans hmissing
    rw [hs.rest] at hno
    cases h₂.symm.trans (literal_of_not_shown hno)
    exact ⟨congrArg (fun cs => Except.error (missing text cs)) hs.rest, InStep.refl _ _ _⟩

end Parser

theorem SymbolTable.agrees {α : Type} (t : SymbolTable α) :
    Parser.Agrees t.parser t.parser := by
  intro here₁ stop₁ here₂ stop₂ hs r₁ r₂ h₁ h₂
  unfold SymbolTable.parser at h₁ h₂
  rw [← hs.rest] at h₂
  cases hl : t.lookup (here₁.rest stop₁) with
  | none =>
    rw [hl] at h₁ h₂
    cases h₁
    cases h₂
    exact ⟨rfl, InStep.refl _ _ _⟩
  | some e =>
    rw [hl] at h₁ h₂
    cases h₁
    cases h₂
    obtain ⟨-, x, hx⟩ := matches_of_lookup hl
    obtain ⟨p, s, hrest, -, hlen⟩ := LetterCase.exists_append_of_foldAll hx.symm
    refine ⟨rfl, p, ⟨s, hrest.symm⟩, ?_, ?_⟩
    · rw [hlen]
      rfl
    · rw [hlen]
      rfl

/-! ## White space and numbers -/

namespace Parser

variable {α : Type}

theorem agrees_times (b : Bounds) {p q : Parser α} (h : p.Agrees q) :
    (times b p).Agrees (times b q) := ⟨rfl, agrees_empty, h⟩

theorem agrees_textSpace : textSpace.Agrees textSpace := (agrees_times .any (agrees_charIf _)).skip

theorem agrees_spacedChar (c : Char) : (spacedChar c).Agrees (spacedChar c) := by
  refine agrees_textSpace.bind fun _ => ?_
  by_cases hc : Predicate.isBlank c
  · rw [if_pos hc]
    exact agrees_empty
  · rw [if_neg hc]
    exact (agrees_char c).bind fun _ => agrees_textSpace

/-- A choice of parsers that look at their windows alone. -/
theorem agrees_choice_self {ps : List (Parser α)} (h : ∀ p ∈ ps, p.Agrees p) :
    (choice ps).Agrees (choice ps) := agrees_choice (List.forall₂_same.2 h)

end Parser

open PegParsing.Parser

theorem SignPolicy.agrees (s : SignPolicy) : s.parser.Agrees s.parser := by
  cases s with
  | never => exact agrees_empty
  | minus => exact agrees_choice_self (by simp [agrees_char, agrees_empty])
  | allowed => exact agrees_choice_self (by simp [agrees_char, agrees_empty])
  | required => exact agrees_choice_self (by simp [agrees_char])

theorem IntFormat.agrees (f : IntFormat) : f.parser.Agrees f.parser := by
  refine Agrees.apply (Agrees.raw (agrees_skips ?_)) f.read
  simp [f.sign.agrees, (agrees_times f.digits (agrees_charIf f.radix.isDigit)).skip]

namespace RealFormat

theorem agrees_digitRun (b : Bounds) : (digitRun b).Agrees (digitRun b) :=
  (agrees_times b (agrees_charIf _)).skip

theorem agrees_fraction (f : RealFormat) : f.fraction.Agrees f.fraction :=
  agrees_skips (by simp [agrees_char, agrees_digitRun])

theorem agrees_exponentPart : exponentPart.Agrees exponentPart := by
  have hletter : (choice [char 'e', char 'E']).Agrees (choice [char 'e', char 'E']) :=
    agrees_choice_self (by simp [agrees_char])
  exact agrees_skips (by simp [hletter, SignPolicy.agrees, agrees_digitRun])

theorem agrees_numeral (f : RealFormat) : f.numeral.Agrees f.numeral := by
  have hpoint : Agrees (choice [f.fraction, enabled (!f.pointRequired) empty]) (choice _) :=
    agrees_choice_self (by simp [f.agrees_fraction, agrees_empty.enabled])
  have hexponent : Agrees (choice [enabled (f.exponent ≠ .never) exponentPart,
      enabled (f.exponent ≠ .required) empty]) (choice _) :=
    agrees_choice_self (by simp [agrees_exponentPart.enabled, agrees_empty.enabled])
  refine agrees_skips ?_
  simp only [List.forall_mem_cons, List.not_mem_nil, false_implies, implies_true, and_true]
  exact ⟨f.sign.agrees, agrees_digitRun _, hpoint, hexponent⟩

theorem agrees_lonePoint (f : RealFormat) : f.lonePoint.Agrees f.lonePoint :=
  agrees_skips (by simp [f.sign.agrees, agrees_char, (agrees_charIf _).reject, digit])

theorem agrees_image (f : RealFormat) : f.image.Agrees f.image :=
  f.agrees_lonePoint.exceptWhere f.agrees_numeral.raw

/-- What is read from an image does not depend on where it stands. -/
theorem read_alike (f : RealFormat) {here₁ stop₁ here₂ stop₂ last₁ last₂ : Cursor}
    (hs : ShowsSame here₁ stop₁ here₂ stop₂) (hc : InStep stop₁ here₁ here₂ last₁ last₂)
    (image : List Char) :
    (f.read here₁ stop₁ last₁ image).Alike stop₁ here₁ here₂ (f.read here₂ stop₂ last₂ image) := by
  unfold read
  rw [← hs.atEnd]
  simp only
  split
  · exact ⟨rfl, InStep.refl _ _ _⟩
  split
  · exact ⟨rfl, InStep.refl _ _ _⟩
  split
  · exact ⟨rfl, hc⟩
  · exact ⟨rfl, hc⟩

theorem agrees_number (f : RealFormat) : f.number.Agrees f.number := by
  intro here₁ stop₁ here₂ stop₂ hs r₁ r₂ h₁ h₂
  obtain ⟨⟨last₁, o⟩, hi₁, rfl⟩ := Option.map_eq_some_iff.1 h₁
  obtain ⟨⟨last₂, o₂⟩, hi₂, rfl⟩ := Option.map_eq_some_iff.1 h₂
  obtain ⟨rfl, hc⟩ := f.agrees_image hs hi₁ hi₂
  cases o with
  | error code => exact ⟨rfl, hc⟩
  | ok image => exact f.read_alike hs hc image

theorem agrees (f : RealFormat) : f.parser.Agrees f.parser :=
  agrees_choice_self (by simp [f.agrees_number, symbolTable.agrees.enabled])

end RealFormat

theorem Terminal.agrees (t : Terminal) : t.parser.Agrees t.parser := by
  cases t with
  | empty => exact agrees_empty.map _
  | literal case text => exact (agrees_literal case _).map _
  | char c => exact (agrees_char c).map _
  | charIf accepts => exact (agrees_charIf accepts).map _
  | eof => exact agrees_eof.map _
  | eol => exact agrees_eol.map _
  | fail kind => exact agrees_failAt _
  | spacedChar c => exact (agrees_spacedChar c).map _
  | sign policy => exact policy.agrees.map _
  | integer format => exact format.agrees.map _
  | real format => exact format.agrees.map _
  | symbols table => exact table.agrees

end PegParsing
