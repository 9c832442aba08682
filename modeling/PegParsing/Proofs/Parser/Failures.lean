import PegParsing.Proofs.Parser.Locality
import PegParsing.Proofs.Parser.Outcomes

/-!
# How the smallest parsers fail

`FailsWithin` names codes besides which a parser has none. Parsers for characters and texts have two,
symbols and ends have one, and white space has none. Numbers have those of their parts: an integer
lacks its sign or its digits, or is out of the range of its type (`IntFormat.failsWithin`). A real
number that is too small is an overflow too, so that it never is an underflow
(`RealFormat.failsWithin`).

Of a choice the failure that came furthest is seen, and the earlier one of two that came equally far.
So an alternative that fails nowhere but where it began never shows behind another one
(`Parser.failure_of_orElse`). What is not enabled is such an alternative, and so are symbols.
-/

namespace PegParsing

variable {α β : Type}

namespace Parser

/-- The parser fails with none but the given codes. -/
def FailsWithin (p : Parser α) (codes : List ErrorCode) : Prop := ∀ code, p.Reports code → code ∈ codes

/-! ## Combinators -/

section Combinators

variable {p : Parser α} {codes : List ErrorCode}

theorem FailsWithin.mono {more : List ErrorCode} (h : p.FailsWithin codes) (hsub : codes ⊆ more) :
    p.FailsWithin more := fun code hp => hsub (h code hp)

theorem failsWithin_succeed (v : α) : (succeed v).FailsWithin codes := fun _ h =>
  absurd h not_reports_succeed

theorem FailsWithin.bind {f : α → Parser β} (hp : p.FailsWithin codes)
    (hf : ∀ v, (f v).FailsWithin codes) : (p.bind f).FailsWithin codes := fun code h =>
  h.of_bind.elim (hp code) fun ⟨v, hv⟩ => hf v code hv

theorem FailsWithin.map (h : p.FailsWithin codes) (f : α → β) : (p.map f).FailsWithin codes :=
  fun code hp => h code hp.of_map

theorem FailsWithin.raw (h : p.FailsWithin codes) : p.raw.FailsWithin codes := fun code hp =>
  h code hp.of_raw

theorem failsWithin_choice {ps : List (Parser α)} (hne : ps ≠ [])
    (h : ∀ p ∈ ps, p.FailsWithin codes) : (choice ps).FailsWithin codes := by
  intro code hps
  obtain ⟨⟨p, hp, hcode⟩, -⟩ := hps.of_choice hne
  exact h p hp code hcode

theorem failsWithin_skips {ps : List (Parser Unit)} (h : ∀ p ∈ ps, p.FailsWithin codes) :
    (skips ps).FailsWithin codes := by
  intro code hps
  rcases hps.of_map.of_sequence with hsep | ⟨q, hq, hcode⟩
  · exact absurd hsep not_reports_succeed
  · obtain ⟨p, hp, rfl⟩ := List.mem_map.1 hq
    exact h p hp code hcode

theorem failsWithin_times (bounds : Bounds) (item : Parser α) :
    (times bounds item).skip.FailsWithin [.tooFew] := fun _ h =>
  List.mem_singleton.2 (Repetition.reports_collect h).2

/-! ## Alternatives that fail where they begin -/

/-- The parser fails nowhere but where it began. -/
def FailsHere (p : Parser α) : Prop :=
  ∀ ⦃here stop c code⦄, p here stop = some (.failure c code) → c = here

theorem failsHere_failAt (code : ErrorCode) : (failAt code : Parser α).FailsHere := by
  intro here stop c other h
  cases h
  rfl

theorem FailsHere.enabled (h : p.FailsHere) (on : Bool) : (enabled on p).FailsHere := by
  cases on with
  | false => exact failsHere_failAt .alwaysFail
  | true => exact h

/-- Such an alternative is never the one whose failure is reported. -/
theorem failure_of_orElse {q : Parser α} {here stop c : Cursor} {code : ErrorCode} (hp : p.Agrees p)
    (hq : q.FailsHere) (h : orElse p q here stop = some (.failure c code)) :
    p here stop = some (.failure c code) := by
  by_cases hfail : p.Fails here stop
  · obtain ⟨d, other, hd⟩ := hfail
    rw [orElse_of_failure hd] at h
    obtain ⟨⟨e, last | x⟩, he, hfurthest⟩ := Option.map_eq_some_iff.1 h
    · obtain rfl := hq he
      have hle : e.offset ≤ d.offset := (hp.reaches hd).offset_le
      change (Parsed.failure d other).furthest (Parsed.failure e last) = _ at hfurthest
      rw [Parsed.furthest_failure, if_neg (Nat.not_lt_of_le hle)] at hfurthest
      rw [hd, hfurthest]
    · cases hfurthest
  · rwa [orElse_of_not_fails hfail] at h

/-- A part that may be left out does not fail, and another one fails by itself. -/
theorem failsWithin_orEmpty {p : Parser Unit} (hp : p.Agrees p) {on : Bool}
    (h : on = false → p.FailsWithin codes) : (choice [p, enabled on empty]).FailsWithin codes := by
  rintro code ⟨here, stop, c, hcode⟩
  cases on with
  | false =>
    exact h rfl code ⟨here, stop, c, failure_of_orElse hp (failsHere_failAt .alwaysFail) hcode⟩
  | true =>
    have hall := (Reports.of_choice (List.cons_ne_nil _ _) ⟨here, stop, c, hcode⟩).2
    obtain ⟨other, hempty⟩ := hall (enabled true empty) (by simp)
    exact absurd hempty not_reports_succeed

end Combinators

/-! ## Characters, texts and ends -/

theorem failsWithin_charIf (accepts : Char → Bool) :
    (charIf accepts).FailsWithin [.unexpectedEof, .unexpectedChar] := by
  rintro code ⟨here, stop, c, h⟩
  unfold charIf at h
  split at h
  · cases h
    decide
  · split at h <;> cases h
    decide

theorem failsWithin_char (c : Char) : (char c).FailsWithin [.unexpectedEof, .unexpectedChar] :=
  (failsWithin_charIf _).map _

theorem failsWithin_literal (case : LetterCase) (text : List Char) :
    (literal case text).FailsWithin [.unexpectedEof, .expectedString] := by
  rintro code ⟨here, stop, c, h⟩
  obtain ⟨w, s, -, -, hread⟩ | ⟨-, hmissing⟩ := literal_cases case text here stop
  · cases h.symm.trans hread
  · cases h.symm.trans hmissing
    unfold missing
    split <;> decide

theorem failsWithin_eof : eof.FailsWithin [.expectedEof] := by
  rintro code ⟨here, stop, c, h⟩
  unfold eof at h
  split at h <;> cases h
  decide

theorem failsWithin_eol : eol.FailsWithin [.expectedEndOfLine] := by
  rintro code ⟨here, stop, c, h⟩
  unfold eol at h
  split at h
  · cases h
  · split at h
    · cases h
      decide
    · split at h <;> cases h

/-- A repetition that asks for no items does not fail. -/
theorem failsWithin_textSpace : textSpace.FailsWithin [] := fun _ h =>
  absurd (Repetition.reports_collect h).1 (Nat.lt_irrefl 0)

theorem failsWithin_spacedChar (c : Char) :
    (spacedChar c).FailsWithin [.unexpectedEof, .unexpectedChar] := by
  have hspace := failsWithin_textSpace.mono (List.nil_subset [.unexpectedEof, .unexpectedChar])
  refine hspace.bind fun _ => ?_
  split
  · exact failsWithin_succeed ()
  · exact (failsWithin_char c).bind fun _ => hspace

end Parser

open PegParsing.Parser

theorem SymbolTable.failsWithin (t : SymbolTable α) : FailsWithin t.parser [.symbolNotFound] := by
  rintro code ⟨here, stop, c, h⟩
  unfold SymbolTable.parser at h
  split at h <;> cases h
  decide

theorem SymbolTable.failsHere (t : SymbolTable α) : FailsHere t.parser := by
  intro here stop c code h
  unfold SymbolTable.parser at h
  split at h
  · cases h
  · cases h
    rfl

/-! ## Numbers -/

/-- What fails where a sign is missing: nothing, if there is an alternative that reads nothing. -/
def SignPolicy.codes : SignPolicy → List ErrorCode
  | never | minus | allowed => []
  | required => [.unexpectedEof, .unexpectedChar]

theorem SignPolicy.failsWithin (s : SignPolicy) : s.parser.FailsWithin s.codes := by
  have hempty : ¬ ∃ code, Parser.empty.Reports code := fun ⟨_, h⟩ => not_reports_succeed h
  cases s with
  | never => exact failsWithin_succeed ()
  | minus =>
    exact fun code h => absurd ((h.of_choice (List.cons_ne_nil _ _)).2 .empty (by simp)) hempty
  | allowed =>
    exact fun code h => absurd ((h.of_choice (List.cons_ne_nil _ _)).2 .empty (by simp)) hempty
  | required =>
    refine failsWithin_choice (List.cons_ne_nil _ _) ?_
    simp only [List.forall_mem_cons]
    exact ⟨failsWithin_char _, failsWithin_char _, nofun⟩

theorem SignPolicy.codes_subset (s : SignPolicy) : s.codes ⊆ [.unexpectedEof, .unexpectedChar] := by
  cases s <;> decide

theorem IntFormat.failsWithin (f : IntFormat) :
    f.parser.FailsWithin (f.sign.codes ++ [.tooFew, .underflow, .overflow]) := by
  intro code h
  rcases h.of_apply with h | ⟨cs, hread⟩
  · have himage : f.image.FailsWithin (f.sign.codes ++ [.tooFew, .underflow, .overflow]) := by
      refine (failsWithin_skips ?_).raw
      simp only [List.forall_mem_cons]
      exact ⟨f.sign.failsWithin.mono (List.subset_append_left _ _),
        (failsWithin_times _ _).mono (by simp), nofun⟩
    exact himage code h
  · refine List.mem_append_right _ ?_
    unfold IntFormat.read IntType.ofNegated IntType.ofMagnitude at hread
    split at hread <;> split at hread <;> cases hread <;> decide

namespace RealFormat

/-- The codes of signs, digits, points and exponents. -/
def numeralCodes : List ErrorCode := [.unexpectedEof, .unexpectedChar, .tooFew]

variable (f : RealFormat)

theorem failsWithin_char (c : Char) : (char c).FailsWithin numeralCodes :=
  (Parser.failsWithin_char c).mono (by decide)

theorem failsWithin_sign (s : SignPolicy) : s.parser.FailsWithin numeralCodes :=
  s.failsWithin.mono (List.Subset.trans s.codes_subset (by decide))

theorem failsWithin_digitRun (b : Bounds) : (digitRun b).FailsWithin numeralCodes :=
  (failsWithin_times b digit).mono (by decide)

theorem failsWithin_fraction : f.fraction.FailsWithin numeralCodes := by
  refine failsWithin_skips ?_
  simp only [List.forall_mem_cons]
  exact ⟨failsWithin_char _, failsWithin_digitRun _, nofun⟩

theorem failsWithin_exponentPart : exponentPart.FailsWithin numeralCodes := by
  have hletter : (choice [char 'e', char 'E']).FailsWithin numeralCodes := by
    refine failsWithin_choice (List.cons_ne_nil _ _) ?_
    simp only [List.forall_mem_cons]
    exact ⟨failsWithin_char _, failsWithin_char _, nofun⟩
  refine failsWithin_skips ?_
  simp only [List.forall_mem_cons]
  exact ⟨hletter, failsWithin_sign _, failsWithin_digitRun _, nofun⟩

theorem failsWithin_numeral : f.numeral.FailsWithin numeralCodes := by
  refine failsWithin_skips ?_
  simp only [List.forall_mem_cons]
  refine ⟨failsWithin_sign _, failsWithin_digitRun _, ?_, ?_, nofun⟩
  · exact failsWithin_orEmpty f.agrees_fraction fun _ => f.failsWithin_fraction
  · refine failsWithin_orEmpty (agrees_exponentPart.enabled _) fun hrequired => ?_
    -- an exponent that is required is not forbidden
    have hexponent : f.exponent = .required := by simpa using hrequired
    rw [hexponent]
    exact failsWithin_exponentPart

theorem failsWithin_image : f.image.FailsWithin (numeralCodes ++ [.symbolNotExpected]) := by
  intro code h
  rcases h.of_exceptWhere with h | rfl
  · exact List.mem_append_left _ (f.failsWithin_numeral.raw code h)
  · decide

theorem code_of_read {here stop last c : Cursor} {image : List Char} {code : ErrorCode}
    (h : f.read here stop last image = .failure c code) :
    code ∈ numeralCodes ++ [.symbolNotExpected, .expectedType, .overflow] := by
  unfold read at h
  simp only at h
  split at h
  · cases h
    split <;> decide
  · split at h
    · cases h
      decide
    · split at h <;> cases h
      decide

theorem failsWithin_number :
    f.number.FailsWithin (numeralCodes ++ [.symbolNotExpected, .expectedType, .overflow]) := by
  rintro code ⟨here, stop, c, h⟩
  obtain ⟨⟨last, other | image⟩, himage, h⟩ := Option.map_eq_some_iff.1 h
  · cases h
    exact f.failsWithin_image.mono (by decide) code ⟨here, stop, c, himage⟩
  · exact f.code_of_read h

variable {f} in
/-- The symbols never tell how the parser fails. -/
theorem number_of_parser_failure {here stop c : Cursor} {code : ErrorCode}
    (h : f.parser here stop = some (.failure c code)) : f.number here stop = some (.failure c code) :=
  failure_of_orElse f.agrees_number (symbolTable.failsHere.enabled f.symbols) h

/-- Whatever is wrong with a real number, be there symbols for one or not. -/
theorem failsWithin :
    f.parser.FailsWithin (numeralCodes ++ [.symbolNotExpected, .expectedType, .overflow]) := by
  rintro code ⟨here, stop, c, h⟩
  exact f.failsWithin_number code ⟨here, stop, c, number_of_parser_failure h⟩

end RealFormat

end PegParsing
