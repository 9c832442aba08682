import PegParsing.Proofs.Number.Literal

/-!
# How real numbers are refused

The parser of real numbers is put together from alternatives that may not be enabled, from symbols and
from a reader that knows fewer texts than can be written. What these fail with is not seen from
outside. The alternatives and the symbols fail where they began and so lose against what was tried
before them (`RealFormat.failsWithin_numeral`, `RealFormat.number_of_parser_failure`). And what has a
digit before its exponent is a numeral, so that the reader knows it (`RealFormat.read_of_image`).

Hence a failure of the parser is that of the number, and it has one of five codes, each of which some
format has on some text (`RealFormat.refuses_with`).
-/

namespace PegParsing.RealFormat

open PegParsing.Parser Decimal

variable {f : RealFormat} {here stop last c : Cursor} {image : List Char} {code : ErrorCode}

/-- What a real number is refused with. -/
def refusals : List ErrorCode :=
  [.unexpectedEof, .unexpectedChar, .tooFew, .symbolNotExpected, .overflow]

/-- The image of a number has no digit before its exponent, or it is a numeral. -/
theorem read_of_image (himage : f.image here stop = some (.success last image)) :
    f.read here stop last image =
        .failure here (if here.atEnd stop then .unexpectedEof else .unexpectedChar) ∨
      ∃ d, IsNumeral image d ∧ f.read here stop last image = if f.format.InRange d
        then .success last (f.format.ofDecimal d) else .failure last .overflow := by
  obtain ⟨es, s, -, hw, -⟩ := exists_image himage
  by_cases hes : es = []
  · subst hes
    refine .inl ?_
    unfold read
    simp only [hw.any_isDigit_eq_false]
    rfl
  · obtain ⟨d, hd⟩ := hw.exists_isNumeral hes
    exact .inr ⟨d, hd, read_of_isNumeral hd⟩

/-- An image is refused for its size, or for want of a digit. -/
theorem read_ne_expectedType (himage : f.image here stop = some (.success last image)) :
    f.read here stop last image ≠ .failure c .expectedType := by
  intro h
  rcases read_of_image himage with hread | ⟨d, -, hread⟩
  · have hcode := congrArg Parsed.error? (hread.symm.trans h)
    split at hcode <;> cases hcode
  · by_cases hrange : f.format.InRange d
    · rw [if_pos hrange] at hread
      cases hread.symm.trans h
    · rw [if_neg hrange] at hread
      cases hread.symm.trans h

theorem number_ne_expectedType : f.number here stop ≠ some (.failure c .expectedType) := by
  intro h
  obtain ⟨⟨last, other | image⟩, himage, hread⟩ := Option.map_eq_some_iff.1 h
  · cases hread
    exact absurd (f.failsWithin_image _ ⟨here, stop, c, himage⟩) (by decide)
  · exact read_ne_expectedType himage hread

theorem mem_refusals (h : f.number here stop = some (.failure c code)) : code ∈ refusals := by
  have hcodes : ∀ code ∈ numeralCodes ++ [.symbolNotExpected, .expectedType, .overflow],
      code ≠ .expectedType → code ∈ refusals := by
    decide
  refine hcodes code (f.failsWithin_number code ⟨here, stop, c, h⟩) ?_
  rintro rfl
  exact number_ne_expectedType h

/-- For each of the codes there is a text that is refused with it. -/
theorem exists_reports (h : code ∈ refusals) : ∃ f : RealFormat, f.parser.Reports code := by
  let plain : RealFormat := { ofFormat .double with symbols := false }
  simp only [refusals, List.mem_cons, List.not_mem_nil, or_false] at h
  rcases h with rfl | rfl | rfl | rfl | rfl
  · exact ⟨plain, .start [], .finish [], .start [], by decide +kernel⟩
  · exact ⟨plain, .start ['x'], .finish ['x'], .start ['x'], by decide +kernel⟩
  · exact ⟨{ plain with digits := .atLeast 1 }, .start ['x'], .finish ['x'], .start ['x'],
      by decide +kernel⟩
  · exact ⟨plain, .start ['.'], .finish ['.'], .start ['.'], by decide +kernel⟩
  · exact ⟨plain, .start "1e999".toList, .finish "1e999".toList, .finish "1e999".toList,
      by decide +kernel⟩

/-- The parser reads a number or a symbol, or it fails as the number does, with one of five codes. None
of these can be left out. -/
theorem refuses_with : (∀ (f : RealFormat) (here stop : Cursor),
      (∃ c x, f.parser here stop = some (.success c x)) ∨
        ∃ c, ∃ code ∈ refusals, f.parser here stop = some (.failure c code) ∧
          f.number here stop = some (.failure c code)) ∧
    ∀ code ∈ refusals, ∃ f : RealFormat, f.parser.Reports code := by
  refine ⟨fun f here stop => ?_, fun code => exists_reports⟩
  obtain ⟨⟨c, code | x⟩, hr⟩ := (f.finishes : f.parser.Finishes here stop).exists
  · have hnumber := number_of_parser_failure hr
    exact .inr ⟨c, code, mem_refusals hnumber, hr, hnumber⟩
  · exact .inl ⟨c, x, hr⟩

end PegParsing.RealFormat
