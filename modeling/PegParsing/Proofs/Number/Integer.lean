import PegParsing.Proofs.Number.Literal
import PegParsing.Proofs.Parser.Runs

/-!
# Integers as they are written

An integer is spelled by the sign that its format takes and by the run of digits behind it
(`IntFormat.Spelling`). The parser reads the whole spelling, and fails behind it if there are too few
digits or if the number is out of range (`IntFormat.parser_eq`). The number is the one that the digits
stand for (`Radix.Denotes`), and it is compared with the exact limits of the type
(`IntFormat.reads_exactly`).

Behind a minus an unsigned type has no numbers at all, not even zero (`IntFormat.refuses_negative`).
-/

namespace PegParsing

open Cursor PegParsing.Parser Decimal

namespace IntFormat

variable {f : IntFormat} {sign ds s : List Char} {here stop : Cursor} {n : Nat}

/-- The integer before `s`: a sign that the format takes, and all digits that follow, as many as there
may be. -/
structure Spelling (f : IntFormat) (sign ds s : List Char) : Prop where
  sign : f.sign.Takes sign (ds ++ s)
  digits : LongestRun f.digits.max f.radix.isDigit ds s

/-- The parser reads the whole spelling; what is wrong with it is reported behind it. -/
theorem parser_eq (h : f.Spelling sign ds s) (hrest : here.rest stop = sign ++ (ds ++ s)) :
    f.parser here stop = some (if ds.length < f.digits.min
      then .failure (here.advance (Text.byteLength (sign ++ ds))) .tooFew
      else ⟨here.advance (Text.byteLength (sign ++ ds)), f.read (sign ++ ds)⟩) := by
  have hsign := (f.sign.munches.eq_success_iff f.sign.agrees).2 ⟨sign, ds ++ s, hrest, h.sign, rfl⟩
  have hskips : skips [f.sign.parser, (times f.digits (charIf f.radix.isDigit)).skip] here stop =
      some (if ds.length < f.digits.min
        then .failure (here.advance (Text.byteLength (sign ++ ds))) .tooFew
        else .success (here.advance (Text.byteLength (sign ++ ds))) ()) := by
    rw [skips_cons, bind_of_success hsign, skips_cons]
    -- nothing stands behind the digits
    show Parser.bind _ succeed _ _ = _
    rw [bind_succeed, times_eq (rest_advance hrest) h.digits, advance_advance,
      ← Text.byteLength_append]
  rw [← List.append_assoc] at hrest
  unfold parser apply image raw
  rw [hskips, Option.map_some, Option.map_some]
  split
  · rfl
  · rw [Parsed.map_success, Parsed.andThen_success]
    show some (Parsed.mk _ (f.read (here.textTo (here.advance (Text.byteLength (sign ++ ds)))))) = _
    rw [textTo_advance hrest]

/-- A sign that is required and missing. -/
theorem parser_of_stops (hsign : f.sign = .required)
    (h : Stops (f.sign.signs.contains ·) (here.rest stop)) :
    f.parser here stop = some (.failure here (unexpected (here.rest stop))) := by
  have hparser : f.sign.parser here stop = some (.failure here (unexpected (here.rest stop))) := by
    rw [hsign] at h ⊢
    exact choice_char_of_stops (List.cons_ne_nil '-' ['+']) h
  unfold parser apply image raw
  rw [skips_cons, bind_of_failure hparser]
  rfl

/-- Unless a sign is required and missing, every text begins with an integer, if perhaps with one that
has too few digits. -/
theorem exists_spelling (f : IntFormat) {cs : List Char}
    (h : f.sign = .required → ¬ Stops (f.sign.signs.contains ·) cs) :
    ∃ sign ds s, cs = sign ++ (ds ++ s) ∧ f.Spelling sign ds s := by
  have hsign : ∃ sign t, cs = sign ++ t ∧ f.sign.Takes sign t := by
    by_cases hstops : Stops (f.sign.signs.contains ·) cs
    · exact ⟨[], cs, rfl, .inr ⟨rfl, fun hreq => h hreq hstops, hstops⟩⟩
    · unfold Stops at hstops
      push Not at hstops
      obtain ⟨c, t, rfl, hc⟩ := hstops
      have hmem : c ∈ f.sign.signs := List.contains_iff_mem.1 (Bool.of_not_eq_false hc)
      exact ⟨[c], t, rfl, .inl ⟨c, hmem, rfl⟩⟩
  obtain ⟨sign, t, rfl, hsign⟩ := hsign
  obtain ⟨ds, s, rfl, hds⟩ := exists_longestRun f.digits.max f.radix.isDigit t
  exact ⟨sign, ds, s, rfl, hsign, hds⟩

/-- What the digits stand for behind a minus. -/
theorem read_minus (f : IntFormat) (ds : List Char) :
    f.read ('-' :: ds) = f.type.ofNegated (f.radix.value ds) := rfl

/-- What the digits stand for without a sign or behind a plus. -/
theorem read_of_ne_minus {negative : Bool} (hsign : IsSign sign negative) (hne : sign ≠ ['-'])
    (hds : ∀ c ∈ ds, f.radix.isDigit c = true) :
    f.read (sign ++ ds) = f.type.ofMagnitude (f.radix.value ds) := by
  cases hsign with
  | minus => exact absurd rfl hne
  | plus => rfl
  | absent =>
    cases ds with
    | nil => rfl
    | cons c ds =>
      obtain ⟨hminus, hplus⟩ := Radix.not_isSign_of_isDigit (hds c List.mem_cons_self)
      unfold read
      split
      · rename_i h
        exact absurd (List.cons.inj h).1 hminus
      · rename_i h
        exact absurd (List.cons.inj h).1 hplus
      · rfl

/-- The digits are those worth less than the base. Where a sign is required and missing, the parser fails
where it stands. Otherwise the text begins with an integer, and the parser fails behind it if it has too
few digits. If it has enough, the number is the exact one that the digits stand for behind the sign; it
is an overflow just above the greatest number of the type and, behind a minus, an underflow just below
the least one of a signed type. -/
theorem reads_exactly (f : IntFormat) (here stop : Cursor) :
    (∀ c, f.radix.isDigit c = true ↔ ∃ v < f.radix.base, DigitWorth c v) ∧
    (f.sign = .required → Stops (f.sign.signs.contains ·) (here.rest stop) →
      f.parser here stop = some (.failure here (unexpected (here.rest stop)))) ∧
    ((f.sign = .required → ¬ Stops (f.sign.signs.contains ·) (here.rest stop)) →
      ∃ sign ds s n, here.rest stop = sign ++ (ds ++ s) ∧ f.Spelling sign ds s ∧
        f.radix.Denotes ds n) ∧
    ∀ sign ds s n, here.rest stop = sign ++ (ds ++ s) → f.Spelling sign ds s →
      f.radix.Denotes ds n →
        let behind := here.advance (Text.byteLength (sign ++ ds))
        (ds.length < f.digits.min → f.parser here stop = some (.failure behind .tooFew)) ∧
        (f.digits.min ≤ ds.length →
          (sign ≠ ['-'] → f.parser here stop = some (if (n : Int) ≤ f.type.max
            then .success behind n else .failure behind .overflow)) ∧
          (sign = ['-'] → f.type.signed = true → f.parser here stop =
            some (if f.type.min ≤ -(n : Int)
              then .success behind (-n) else .failure behind .underflow))) := by
  refine ⟨fun c => Radix.isDigit_iff, parser_of_stops, fun h => ?_,
    fun sign ds s n hrest hs hn => ?_⟩
  · obtain ⟨sign, ds, s, hrest, hs⟩ := f.exists_spelling h
    exact ⟨sign, ds, s, _, hrest, hs, (Radix.denotes_iff hs.digits.all).2 rfl⟩
  · obtain rfl := (Radix.denotes_iff hs.digits.all).1 hn
    rw [parser_eq hs hrest]
    refine ⟨fun hfew => by rw [if_pos hfew], fun hmany => ?_⟩
    rw [if_neg (Nat.not_lt.2 hmany)]
    refine ⟨fun hne => ?_, ?_⟩
    · obtain ⟨negative, hsign⟩ := hs.sign.exists_isSign
      rw [read_of_ne_minus hsign hne hs.digits.all]
      unfold IntType.ofMagnitude
      split <;> rfl
    · rintro rfl hsigned
      rw [List.singleton_append, read_minus]
      unfold IntType.ofNegated
      rw [hsigned]
      simp only [true_and]
      split <;> rfl

/-! ## Unsigned types -/

theorem parser_minus (hunsigned : f.type.signed = false) (hminus : '-' ∈ f.sign.signs)
    (hrest : here.rest stop = '-' :: (ds ++ s))
    (hds : LongestRun f.digits.max f.radix.isDigit ds s) (hmin : f.digits.min ≤ ds.length) :
    f.parser here stop =
      some (.failure (here.advance (Text.byteLength ('-' :: ds))) .underflow) := by
  have hs : f.Spelling ['-'] ds s := ⟨.inl ⟨'-', hminus, rfl⟩, hds⟩
  rw [parser_eq hs hrest, if_neg (Nat.not_lt.2 hmin), List.singleton_append, read_minus]
  unfold IntType.ofNegated
  rw [hunsigned]
  rfl

/-- Behind a minus an unsigned type refuses every number for its sign. Zero is refused too, and only
there does this differ from a judgment by value. -/
theorem refuses_negative (hunsigned : f.type.signed = false) (hminus : '-' ∈ f.sign.signs)
    (hrest : here.rest stop = '-' :: (ds ++ s))
    (hds : LongestRun f.digits.max f.radix.isDigit ds s) (hmin : f.digits.min ≤ ds.length) :
    let behind := here.advance (Text.byteLength ('-' :: ds))
    ∃ n, f.radix.Denotes ds n ∧ f.parser here stop = some (.failure behind .underflow) ∧
      (f.parser here stop = some (if n = 0 then .success behind 0 else .failure behind .underflow) ↔
        n ≠ 0) := by
  refine ⟨f.radix.value ds, (Radix.denotes_iff hds.all).2 rfl, ?_⟩
  rw [parser_minus hunsigned hminus hrest hds hmin]
  refine ⟨rfl, ?_⟩
  by_cases hzero : f.radix.value ds = 0
  · rw [if_pos hzero]
    exact iff_of_false nofun (absurd hzero)
  · rw [if_neg hzero]
    exact iff_of_true rfl hzero

/-- Bytes, with a minus if there is one. -/
def byteWithMinus : IntFormat := (ofType ⟨false, 8⟩).withSign .minus

/-- Minus seven is refused, as it should be. -/
theorem refuses_minus_seven : byteWithMinus.type.signed = false ∧ '-' ∈ byteWithMinus.sign.signs ∧
    ∃ n, Radix.decimal.Denotes ['7'] n ∧ byteWithMinus.parser (start ['-', '7']) (finish ['-', '7']) =
      some (.failure (finish ['-', '7']) .underflow) := by
  have hminus : '-' ∈ byteWithMinus.sign.signs := List.mem_singleton_self _
  have hrest : (start ['-', '7']).rest (finish ['-', '7']) = '-' :: (['7'] ++ []) := rest_start _
  have hds : LongestRun none Radix.decimal.isDigit ['7'] [] :=
    longestRun_nil (List.forall_mem_singleton.2 rfl)
  obtain ⟨n, hn, hparser, -⟩ :=
    @refuses_negative byteWithMinus _ _ _ _ rfl hminus hrest hds (Nat.le_refl 1)
  exact ⟨rfl, hminus, n, hn, hparser⟩

/-- Minus zero is refused as well, although its value fits. -/
theorem refuses_minus_zero : byteWithMinus.type.signed = false ∧ '-' ∈ byteWithMinus.sign.signs ∧
    LongestRun byteWithMinus.digits.max byteWithMinus.radix.isDigit ['0'] [] ∧
    byteWithMinus.digits.min ≤ ['0'].length ∧ byteWithMinus.radix.Denotes ['0'] 0 ∧
      byteWithMinus.parser (start ['-', '0']) (finish ['-', '0']) ≠
        some (.success (finish ['-', '0']) 0) := by
  have hminus : '-' ∈ byteWithMinus.sign.signs := List.mem_singleton_self _
  have hrest : (start ['-', '0']).rest (finish ['-', '0']) = '-' :: (['0'] ++ []) := rest_start _
  have hds : LongestRun none Radix.decimal.isDigit ['0'] [] :=
    longestRun_nil (List.forall_mem_singleton.2 rfl)
  refine ⟨rfl, hminus, hds, Nat.le_refl 1, ⟨[0], .cons rfl .nil, rfl⟩, ?_⟩
  rw [parser_minus rfl hminus hrest hds (Nat.le_refl 1)]
  exact nofun

end IntFormat

end PegParsing
