import PegParsing.Proofs.Number.Literal

/-!
# What signs a real number has

The sign policy of a format is a matter of its numbers: no number is read whose sign the policy does
not accept, and none without a sign if there must be one (`RealFormat.IsLiteral.governs`). Infinities
and "not a number" are no literals. Where their names are known they have any sign or none, whatever
the policy says (`RealFormat.parser_of_symbol`).

`RealFormat.sign_governs_numbers` tells the two apart by the value: what is read is finite just if it
was a literal.
-/

namespace PegParsing

open PegParsing.Parser Decimal

/-! ## Finite values -/

/-- Neither an infinity nor no number. -/
def BinaryFloat.isFinite : BinaryFloat → Bool
  | finite .. => true
  | nan | infinite _ => false

namespace BinaryFormat

variable (f : BinaryFormat)

theorem roundRatio_ne_nan (negative : Bool) (num den : Nat) : f.roundRatio negative num den ≠ .nan := by
  unfold roundRatio
  simp only
  split
  all_goals
    split
    · exact nofun
    · exact nofun

/-- Every decimal is rounded to something. -/
theorem ofDecimal_ne_nan (d : Decimal) : f.ofDecimal d ≠ .nan := by
  unfold ofDecimal
  split
  · exact nofun
  split
  · exact nofun
  split
  · exact nofun
  · exact f.roundRatio_ne_nan d.negative _ _

variable {f}

theorem InRange.isFinite {d : Decimal} (h : f.InRange d) : (f.ofDecimal d).isFinite = true := by
  have hinfinite := h.1
  cases hx : f.ofDecimal d with
  | nan => exact absurd hx (f.ofDecimal_ne_nan d)
  | infinite negative =>
    rw [hx] at hinfinite
    cases hinfinite
  | finite => rfl

end BinaryFormat

theorem RealFormat.IsSymbol.isFinite {w : List Char} {x : BinaryFloat} (h : IsSymbol w x) :
    x.isFinite = false := by
  cases h <;> rfl

/-! ## Policies -/

/-- The text begins with no sign that the policy does not accept, and with one if there must be one. -/
def SignPolicy.Governs (policy : SignPolicy) (w : List Char) : Prop :=
  match policy with
  | never => w.head? ≠ some '+' ∧ w.head? ≠ some '-'
  | minus => w.head? ≠ some '+'
  | allowed => True
  | required => w.head? = some '+' ∨ w.head? = some '-'

/-- A sign that was taken governs the text, whatever stands behind it but a second sign. -/
theorem SignPolicy.Takes.governs {policy : SignPolicy} {sign t w : List Char}
    (h : policy.Takes sign t) (hw : Stops (fun c => c == '+' || c == '-') w) :
    policy.Governs (sign ++ w) := by
  rcases h with ⟨c, hc, rfl⟩ | ⟨rfl, hrequired, -⟩
  · cases policy with
    | never => exact absurd hc List.not_mem_nil
    | minus =>
      obtain rfl := List.mem_singleton.1 hc
      exact fun h => absurd (Option.some.inj h) (by decide)
    | allowed => trivial
    | required =>
      have hsigns : c = '-' ∨ c = '+' := by simpa [signs] using hc
      rcases hsigns with rfl | rfl
      · exact .inr rfl
      · exact .inl rfl
  · have hhead := head?_of_stops_sign hw
    cases policy with
    | never => exact hhead
    | minus => exact hhead.1
    | allowed => trivial
    | required => exact absurd rfl hrequired

namespace RealFormat

variable {f : RealFormat} {w s : List Char} {here stop c : Cursor} {x : BinaryFloat}

theorem IsLiteral.governs (h : f.IsLiteral w s) : f.sign.Governs w := by
  obtain ⟨es, hes, @⟨sign, ds, p, fs, e, s, hsign, hds, hp, -⟩⟩ := h
  exact hsign.governs (stops_sign_of_parts hds.1 hp.isFraction.2 hes e)

/-! ## Numbers and symbols -/

/-- Where the symbols are known and one of them stands, it is read. -/
theorem parser_of_symbol (hknown : f.symbols = true)
    (h : symbolTable.parser here stop = some (.success c x)) :
    f.parser here stop = some (.success c x) := by
  refine (parser_eq_success_of_not_literal fun w s hrest hw => ?_).2 ⟨hknown, h⟩
  obtain ⟨code, hfail⟩ := hw.symbols_fail hrest
  have hsuccess : enabled f.symbols symbolTable.parser here stop = some (.success c x) :=
    enabled_eq_success.2 ⟨hknown, h⟩
  cases hsuccess.symm.trans hfail

/-- What the parser reads is a number of the format, and then its sign is one that the policy of the
format accepts; or, if symbols are known, it is "inf" or "nan", in any case and with any sign or none.
The two are told apart by whether the value is finite. -/
theorem sign_governs_numbers (f : RealFormat) (here stop c : Cursor) (x : BinaryFloat) :
    f.parser here stop = some (.success c x) ↔
      ∃ w s, here.rest stop = w ++ s ∧ c = here.advance (Text.byteLength w) ∧
        ((x.isFinite = true ∧ f.sign.Governs w ∧ f.IsLiteral w s ∧
            ∃ d, IsNumeral w d ∧ f.format.InRange d ∧ x = f.format.ofDecimal d) ∨
          x.isFinite = false ∧ f.symbols = true ∧ IsSymbol w x) := by
  constructor
  · intro h
    by_cases hliteral : ∃ w s, here.rest stop = w ++ s ∧ f.IsLiteral w s
    · obtain ⟨w, s, hrest, hw⟩ := hliteral
      obtain ⟨d, hd⟩ := hw.exists_isNumeral
      rw [hw.parser_eq hrest, hw.number_eq hd hrest] at h
      by_cases hrange : f.format.InRange d
      · rw [if_pos hrange] at h
        cases h
        exact ⟨w, s, hrest, rfl, .inl ⟨hrange.isFinite, hw.governs, hw, d, hd, hrange, rfl⟩⟩
      · rw [if_neg hrange] at h
        cases h
    · have hno : ∀ w s, here.rest stop = w ++ s → ¬ f.IsLiteral w s := fun w s hrest hw =>
        hliteral ⟨w, s, hrest, hw⟩
      obtain ⟨hknown, hsymbol⟩ := (parser_eq_success_of_not_literal hno).1 h
      obtain ⟨w, s, hrest, hw, hc⟩ := symbol_eq_success.1 hsymbol
      exact ⟨w, s, hrest, hc, .inr ⟨hw.isFinite, hknown, hw⟩⟩
  · rintro ⟨w, s, hrest, rfl, ⟨-, -, hw, d, hd, hrange, rfl⟩ | ⟨-, hknown, hw⟩⟩
    · rw [hw.parser_eq hrest, hw.number_eq hd hrest, if_pos hrange]
    · exact parser_of_symbol hknown (symbol_eq_success.2 ⟨w, s, hrest, hw, rfl⟩)

/-- A format whose numbers have no sign reads an infinity that has one. -/
theorem sign_spares_symbols : ¬ ∀ (f : RealFormat) (here stop c : Cursor) (x : BinaryFloat),
    f.parser here stop = some (.success c x) → f.sign.Governs (here.textTo c) := by
  intro h
  have hsymbol : symbolTable.parser (.start "-inf".toList) (.finish "-inf".toList) =
      some (.success (.finish "-inf".toList) (.infinite true)) :=
    symbol_eq_success.2 ⟨"-inf".toList, [], by decide +kernel, .infinite .minus rfl, rfl⟩
  have hgoverns := h { ofFormat .double with sign := .never } _ _ _ _ (parser_of_symbol rfl hsymbol)
  exact hgoverns.2 (by decide +kernel)

end RealFormat

end PegParsing
