import PegParsing.Proofs.Number.Symbols
import PegParsing.Proofs.Parser.Failures
import PegParsing.Proofs.Parser.Munching

/-!
# Literals of a format

`RealFormat.IsLiteral` says which texts a format of real numbers takes for a number, and where such a
text ends: each run of digits goes on as far as digits and the bounds of the format do, a point and an
exponent are taken where they may be taken, and there is a digit before the exponent. No text begins
with two of them.

A number is recognised just where a literal stands; where there is none, a symbol is, if one stands there
(`RealFormat.recognises_literals`).
-/

namespace PegParsing

open PegParsing.Parser Decimal

/-! ## Literals -/

/-- The signs that a policy knows. -/
def SignPolicy.signs : SignPolicy → List Char
  | never => []
  | minus => ['-']
  | allowed | required => ['-', '+']

/-- A sign before `s` that the policy knows, or nothing if there is none and none is required. -/
def SignPolicy.Takes (policy : SignPolicy) (w s : List Char) : Prop :=
  (∃ c ∈ policy.signs, w = [c]) ∨
    w = [] ∧ policy ≠ .required ∧ Stops (policy.signs.contains ·) s

namespace RealFormat

/-- A point before `s` with the decimals `fs`, or neither if there is no point and none is required,
for itself or for the sake of decimals. -/
inductive PointPart (f : RealFormat) : List Char → List Char → List Char → Prop
  | present {fs s} : Cut f.decimals Predicate.isDigit fs s → PointPart f ('.' :: fs) fs s
  | absent {s} : f.point ≠ .required → f.decimals.min = 0 → (∀ t, s ≠ '.' :: t) →
      PointPart f [] [] s

/-- A whole exponent before `s`: its letter, a sign or none, and all digits that follow. -/
inductive Exponent : List Char → List Char → Prop
  | mk {e sign ds s} : e = 'e' ∨ e = 'E' → SignPolicy.allowed.Takes sign (ds ++ s) →
      Cut (.atLeast 1) Predicate.isDigit ds s → Exponent (e :: (sign ++ ds)) s

/-- An exponent before `s`, or nothing if none is required and there is no whole one that could be
taken. -/
inductive ExponentPart (f : RealFormat) : List Char → List Char → Prop
  | present {w s} : f.exponent ≠ .never → Exponent w s → ExponentPart f w s
  | absent {s} : f.exponent ≠ .required →
      (f.exponent ≠ .never → ∀ w t, s = w ++ t → ¬ Exponent w t) → ExponentPart f [] s

/-- Sign, digits, point and exponent before `s`, each as long as it may be, with the digits `es`
before the exponent. -/
inductive Image (f : RealFormat) : List Char → List Char → List Char → Prop
  | mk {sign ds p fs e s} : f.sign.Takes sign (ds ++ (p ++ (e ++ s))) →
      Cut f.digits Predicate.isDigit ds (p ++ (e ++ s)) → f.PointPart p fs (e ++ s) →
      f.ExponentPart e s → Image f (sign ++ (ds ++ (p ++ e))) (ds ++ fs) s

/-- The number before `s`; it has a digit before the exponent. -/
def IsLiteral (f : RealFormat) (w s : List Char) : Prop := ∃ es, es ≠ [] ∧ f.Image w es s

end RealFormat

theorem SignPolicy.Takes.exists_isSign {policy : SignPolicy} {w s : List Char}
    (h : policy.Takes w s) : ∃ negative, IsSign w negative := by
  rcases h with ⟨c, hc, rfl⟩ | ⟨rfl, -⟩
  · have hsigns : c = '-' ∨ c = '+' := by
      cases policy with
      | never => exact absurd hc List.not_mem_nil
      | minus => exact .inl (List.mem_singleton.1 hc)
      | allowed | required => simpa [signs] using hc
    rcases hsigns with rfl | rfl
    · exact ⟨true, .minus⟩
    · exact ⟨false, .plus⟩
  · exact ⟨false, .absent⟩

/-! ## Their parsers -/

theorem SignPolicy.munches (policy : SignPolicy) : policy.parser.Munches policy.Takes := by
  have hoptional : policy.parser = choice (policy.signs.map char ++ [empty]) → policy ≠ .required →
      policy.parser.Munches policy.Takes := by
    intro hparser hne
    rw [hparser]
    refine (munches_choice_char_empty policy.signs).congr fun w s => or_congr_right ?_
    rw [and_iff_right hne]
  cases policy with
  | never => exact hoptional rfl nofun
  | minus => exact hoptional rfl nofun
  | allowed => exact hoptional rfl nofun
  | required =>
    refine (munches_choice_char (SignPolicy.signs .required)).congr fun w s => ?_
    exact (or_iff_left fun h => h.2.1 rfl).symm

namespace RealFormat

variable {f : RealFormat} {w es s t : List Char}

theorem munches_digitRun (b : Bounds) : (digitRun b).Munches (Cut b Predicate.isDigit) :=
  munches_times b Predicate.isDigit

theorem munches_fraction (f : RealFormat) : f.fraction.Munches fun w s =>
    ∃ fs, w = '.' :: fs ∧ Cut f.decimals Predicate.isDigit fs s := by
  refine ((munches_char '.').skips (munches_digitRun f.decimals).skips_singleton).congr fun w s => ?_
  constructor
  · rintro ⟨_, fs, rfl, rfl, hfs⟩
    exact ⟨fs, rfl, hfs⟩
  · rintro ⟨fs, rfl, hfs⟩
    exact ⟨['.'], fs, rfl, rfl, hfs⟩

theorem pointRequired_eq_false_iff :
    f.pointRequired = false ↔ f.point ≠ .required ∧ f.decimals.min = 0 := by
  unfold pointRequired
  rw [decide_eq_false_iff_not, not_or, Nat.not_lt, Nat.le_zero]

theorem munches_point (f : RealFormat) :
    (choice [f.fraction, enabled (!f.pointRequired) empty]).Munches fun w s =>
      ∃ fs, f.PointPart w fs s := by
  refine (f.munches_fraction.either (munches_empty.enabled (!f.pointRequired))).congr fun w s => ?_
  rw [Bool.not_eq_true', pointRequired_eq_false_iff]
  constructor
  · rintro (⟨fs, rfl, hfs⟩ | ⟨⟨⟨hpoint, hmin⟩, rfl⟩, hno⟩)
    · exact ⟨fs, .present hfs⟩
    · refine ⟨[], .absent hpoint hmin fun t ht => ?_⟩
      -- with no lower bound any point begins a fraction
      obtain ⟨fs, u, rfl, hfs, hmax, hend⟩ := exists_cut f.decimals.max Predicate.isDigit t
      refine hno ('.' :: fs) u ht ⟨fs, rfl, hfs, ⟨?_, hmax⟩, hend⟩
      rw [hmin]
      exact Nat.zero_le _
  · rintro ⟨fs, hfs | ⟨hpoint, hmin, hno⟩⟩
    · exact .inl ⟨fs, rfl, hfs⟩
    · refine .inr ⟨⟨⟨hpoint, hmin⟩, rfl⟩, ?_⟩
      rintro v t hs ⟨fs, rfl, -⟩
      exact hno _ hs

theorem munches_exponentPart : exponentPart.Munches Exponent := by
  have hsign := SignPolicy.allowed.munches.skips (munches_digitRun (.atLeast 1)).skips_singleton
  refine ((munches_choice_char ['e', 'E']).skips hsign).congr fun w s => ?_
  constructor
  · rintro ⟨_, _, rfl, ⟨e, he, rfl⟩, sign, ds, rfl, hsign, hds⟩
    exact @Exponent.mk e sign ds s (by simpa using he) hsign hds
  · rintro ⟨he, hsign, hds⟩
    exact ⟨[_], _, rfl, ⟨_, by simpa using he, rfl⟩, _, _, rfl, hsign, hds⟩

theorem munches_exponent (f : RealFormat) :
    (choice [enabled (f.exponent ≠ .never) exponentPart,
      enabled (f.exponent ≠ .required) empty]).Munches f.ExponentPart := by
  refine ((munches_exponentPart.enabled _).either (munches_empty.enabled _)).congr fun w s => ?_
  simp only [decide_eq_true_eq]
  constructor
  · rintro (⟨hnever, hw⟩ | ⟨⟨hrequired, rfl⟩, hno⟩)
    · exact .present hnever hw
    · exact .absent hrequired fun hnever v t hs hv => hno v t hs ⟨hnever, hv⟩
  · rintro (⟨hnever, hw⟩ | ⟨hrequired, hno⟩)
    · exact .inl ⟨hnever, hw⟩
    · exact .inr ⟨⟨hrequired, rfl⟩, fun v t hs hv => hno hv.1 v t hs hv.2⟩

theorem munches_numeral (f : RealFormat) : f.numeral.Munches fun w s => ∃ es, f.Image w es s := by
  have htail := f.munches_point.skips f.munches_exponent.skips_singleton
  refine (f.sign.munches.skips ((munches_digitRun f.digits).skips htail)).congr fun w s => ?_
  constructor
  · rintro ⟨sign, _, rfl, hsign, ds, _, rfl, hds, p, e, rfl, ⟨fs, hp⟩, he⟩
    simp only [List.append_assoc] at hsign hds
    exact ⟨ds ++ fs, .mk hsign hds hp he⟩
  · rintro ⟨_, hsign, hds, hp, he⟩
    refine ⟨_, _, rfl, ?_, _, _, rfl, ?_, _, _, rfl, ⟨_, hp⟩, he⟩
    · simpa only [List.append_assoc] using hsign
    · simpa only [List.append_assoc] using hds

theorem munches_lonePoint (f : RealFormat) : f.lonePoint.Munches fun w s =>
    ∃ sign, w = sign ++ ['.'] ∧ f.sign.Takes sign ('.' :: s) ∧ Stops Predicate.isDigit s := by
  have hpoint := (munches_char '.').skips (munches_reject_charIf Predicate.isDigit).skips_singleton
  refine (f.sign.munches.skips hpoint).congr fun w s => ?_
  constructor
  · rintro ⟨sign, _, rfl, hsign, _, _, rfl, rfl, rfl, hs⟩
    exact ⟨sign, rfl, hsign, hs⟩
  · rintro ⟨sign, rfl, hsign, hs⟩
    exact ⟨sign, ['.'], rfl, hsign, ['.'], [], rfl, rfl, rfl, hs⟩

/-! ## Literals are numerals -/

theorem PointPart.isFraction {fs : List Char} (h : f.PointPart w fs s) :
    Digits fs ∧ IsFraction w fs := by
  cases h with
  | present hfs => exact ⟨hfs.1, .inr rfl⟩
  | absent => exact ⟨List.forall_mem_nil _, .inl ⟨rfl, rfl⟩⟩

theorem ExponentPart.exists_isExponent (h : f.ExponentPart w s) : ∃ x, IsExponent w x := by
  cases h with
  | absent => exact ⟨0, .absent⟩
  | present hnever hw =>
    obtain ⟨he, hsign, hds, ⟨hmin, -⟩, -⟩ := hw
    obtain ⟨negative, hsign⟩ := hsign.exists_isSign
    have hdigits : Digits _ := hds
    exact ⟨_, .present he hsign hds (List.length_pos_iff.1 hmin) (hdigits.denotes_iff.2 rfl)⟩

/-- What was taken for an image is made like a numeral, but for a digit. -/
theorem Image.exists_parts (h : f.Image w es s) : ∃ sign negative ds p fs e x,
    w = sign ++ (ds ++ (p ++ e)) ∧ es = ds ++ fs ∧ IsSign sign negative ∧ Digits ds ∧ Digits fs ∧
      IsFraction p fs ∧ IsExponent e x := by
  obtain @⟨sign, ds, p, fs, e, s, hsign, hds, hp, he⟩ := h
  obtain ⟨negative, hsign⟩ := hsign.exists_isSign
  obtain ⟨hfs, hp⟩ := hp.isFraction
  obtain ⟨x, he⟩ := he.exists_isExponent
  exact ⟨sign, negative, ds, p, fs, e, x, rfl, rfl, hsign, hds.1, hfs, hp, he⟩

theorem Image.exists_isNumeral (h : f.Image w es s) (hes : es ≠ []) : ∃ d, IsNumeral w d := by
  obtain ⟨sign, negative, ds, p, fs, e, x, rfl, rfl, hsign, hds, hfs, hp, he⟩ := h.exists_parts
  have hm := isMantissa_of_parts hds hfs hp hes
  have hnumeral := IsNumeral.mk hsign hm (hm.digits.denotes_iff.2 rfl) he
  rw [List.append_assoc] at hnumeral
  exact ⟨_, hnumeral⟩

theorem IsLiteral.exists_isNumeral (h : f.IsLiteral w s) : ∃ d, IsNumeral w d := by
  obtain ⟨es, hes, himage⟩ := h
  exact himage.exists_isNumeral hes

/-- Without a digit before the exponent there is none in the mantissa. -/
theorem Image.any_isDigit_eq_false (h : f.Image w [] s) :
    (mantissa w).any Predicate.isDigit = false := by
  obtain ⟨sign, negative, ds, p, fs, e, x, rfl, hnil, hsign, hds, hfs, hp, he⟩ := h.exists_parts
  obtain ⟨rfl, rfl⟩ := List.append_eq_nil_iff.1 hnil.symm
  rw [mantissa_eq hsign hds hfs hp he]
  rcases hp with ⟨rfl, -⟩ | rfl <;> cases hsign <;> rfl

theorem Image.ne_nil {d : Decimal} (h : f.Image w es s) (hw : IsNumeral w d) : es ≠ [] := by
  rintro rfl
  cases hw.any_isDigit.symm.trans h.any_isDigit_eq_false

/-! ## The number -/

/-- A literal is no point on its own: there is a digit behind or before its point. -/
theorem IsLiteral.rejects_lonePoint (h : f.IsLiteral w s) : f.lonePoint.Rejects (w ++ s) := by
  obtain ⟨_, hes, @⟨sign, ds, p, fs, e, s, hsign, hds, hp, he⟩⟩ := h
  refine f.munches_lonePoint.rejects ?_
  rintro _ t heq ⟨sign', rfl, hsign', ht⟩
  simp only [List.append_assoc, List.singleton_append] at heq
  -- both begin with the same sign
  obtain ⟨rfl, htail⟩ := f.sign.munches.unique hsign hsign' heq
  cases ds with
  | cons c ds =>
    have hdigit := hds.1 c List.mem_cons_self
    rw [(List.cons.inj htail).1] at hdigit
    cases hdigit
  | nil =>
    cases hp with
    | absent => exact hes rfl
    | present hfs =>
      obtain ⟨c, fs, rfl⟩ := List.exists_cons_of_ne_nil hes
      have hdigit := hfs.1 c List.mem_cons_self
      rw [ht c _ (List.cons.inj htail).2.symm] at hdigit
      cases hdigit

theorem IsLiteral.image_eq (h : f.IsLiteral w s) {here stop : Cursor}
    (hrest : here.rest stop = w ++ s) :
    f.image here stop = some (.success (here.advance (Text.byteLength w)) w) := by
  obtain ⟨es, -, himage⟩ := id h
  have hraw := Accepts.raw f.agrees_numeral (f.munches_numeral.accepts ⟨es, himage⟩)
  exact (Accepts.exceptWhere h.rejects_lonePoint hraw).eq_success f.agrees_image hrest

/-- The number that a literal stands for, or an overflow behind it. -/
theorem IsLiteral.number_eq (h : f.IsLiteral w s) {d : Decimal} (hd : IsNumeral w d)
    {here stop : Cursor} (hrest : here.rest stop = w ++ s) :
    f.number here stop = some (if f.format.InRange d
      then .success (here.advance (Text.byteLength w)) (f.format.ofDecimal d)
      else .failure (here.advance (Text.byteLength w)) .overflow) := by
  rw [number_of_image (h.image_eq hrest), read_of_isNumeral hd]

/-- What is taken for an image is the text up to where it ends. -/
theorem exists_image {here stop c : Cursor} {image : List Char}
    (h : f.image here stop = some (.success c image)) : ∃ es s, here.rest stop = image ++ s ∧
      f.Image image es s ∧ c = here.advance (Text.byteLength image) := by
  obtain ⟨⟨⟩, hv, rfl⟩ := raw_eq_success.1 (exceptWhere_eq_success.1 h).2
  obtain ⟨w, s, hrest, ⟨es, himage⟩, rfl⟩ :=
    (f.munches_numeral.eq_success_iff f.agrees_numeral).1 hv
  rw [Cursor.textTo_advance hrest]
  exact ⟨es, s, hrest, himage, rfl⟩

/-- An image that is a numeral is a literal. -/
theorem isLiteral_of_image {here stop c : Cursor} {image : List Char} {d : Decimal}
    (h : f.image here stop = some (.success c image)) (hd : IsNumeral image d) :
    ∃ w s, here.rest stop = w ++ s ∧ f.IsLiteral w s ∧ c = here.advance (Text.byteLength w) := by
  obtain ⟨es, s, hrest, himage, hc⟩ := exists_image h
  exact ⟨image, s, hrest, ⟨es, himage.ne_nil hd, himage⟩, hc⟩

/-- A number is recognised, be it in range or not, just where a literal stands. -/
theorem number_recognises (f : RealFormat) {here stop c : Cursor} :
    ((∃ x, f.number here stop = some (.success c x)) ∨
        f.number here stop = some (.failure c .overflow)) ↔
      ∃ w s, here.rest stop = w ++ s ∧ f.IsLiteral w s ∧ c = here.advance (Text.byteLength w) := by
  constructor
  · rintro (⟨x, h⟩ | h)
    all_goals obtain ⟨⟨last, code | image⟩, himage, h⟩ := Option.map_eq_some_iff.1 h
    · cases h
    · obtain ⟨rfl, d, hd, -⟩ := read_eq_success.1 h
      exact isLiteral_of_image himage hd
    · cases h
      exact absurd (f.failsWithin_image _ ⟨here, stop, c, himage⟩) (by decide)
    · obtain ⟨rfl, d, hd⟩ := isNumeral_of_read_eq_overflow h
      exact isLiteral_of_image himage hd
  · rintro ⟨w, s, hrest, hw, rfl⟩
    obtain ⟨d, hd⟩ := hw.exists_isNumeral
    rw [hw.number_eq hd hrest]
    by_cases hrange : f.format.InRange d
    · rw [if_pos hrange]
      exact .inl ⟨_, rfl⟩
    · rw [if_neg hrange]
      exact .inr rfl

/-! ## Numbers and symbols -/

/-- The symbols fail at the beginning of a literal, be they enabled or not. -/
theorem IsLiteral.symbols_fail (h : f.IsLiteral w s) {here stop : Cursor}
    (hrest : here.rest stop = w ++ s) :
    ∃ code, enabled f.symbols symbolTable.parser here stop = some (.failure here code) := by
  obtain ⟨d, hd⟩ := h.exists_isNumeral
  cases f.symbols with
  | false => exact ⟨.alwaysFail, rfl⟩
  | true =>
    refine ⟨.symbolNotFound, ?_⟩
    show symbolTable.parser here stop = _
    unfold SymbolTable.parser
    rw [hrest, lookup_eq_none hd s]

/-- Where a literal stands, symbols change nothing. -/
theorem IsLiteral.parser_eq (h : f.IsLiteral w s) {here stop : Cursor}
    (hrest : here.rest stop = w ++ s) : f.parser here stop = f.number here stop := by
  obtain ⟨d, hd⟩ := h.exists_isNumeral
  have hnumber := h.number_eq hd hrest
  show orElse f.number (enabled f.symbols symbolTable.parser) here stop = _
  by_cases hrange : f.format.InRange d
  · rw [if_pos hrange] at hnumber
    refine orElse_of_not_fails ?_ _
    rintro ⟨c, code, hfail⟩
    cases hnumber.symm.trans hfail
  · rw [if_neg hrange] at hnumber
    obtain ⟨code, hcode⟩ := h.symbols_fail hrest
    rw [orElse_of_failure hnumber, hcode, hnumber]
    -- of the two failures the overflow came further
    exact congrArg some (if_neg (Nat.not_lt_of_le (Nat.le_add_right _ _)))

section NoLiteral

variable {here stop : Cursor} (hno : ∀ w s, here.rest stop = w ++ s → ¬ f.IsLiteral w s)

include hno

theorem number_fails : ∃ c code, code ≠ .overflow ∧ f.number here stop = some (.failure c code) := by
  obtain ⟨⟨c, code | x⟩, hr⟩ := f.finishes_number.exists
  · refine ⟨c, code, ?_, hr⟩
    rintro rfl
    obtain ⟨w, s, hrest, hw, -⟩ := f.number_recognises.1 (.inr hr)
    exact hno w s hrest hw
  · obtain ⟨w, s, hrest, hw, -⟩ := f.number_recognises.1 (.inl ⟨x, hr⟩)
    exact absurd hw (hno w s hrest)

theorem parser_eq_success_of_not_literal {c : Cursor} {x : BinaryFloat} :
    f.parser here stop = some (.success c x) ↔
      f.symbols = true ∧ symbolTable.parser here stop = some (.success c x) := by
  obtain ⟨d, code, -, hnumber⟩ := number_fails hno
  rw [← enabled_eq_success]
  show orElse f.number (enabled f.symbols symbolTable.parser) here stop = _ ↔ _
  rw [orElse_eq_success]
  constructor
  · rintro (h | h)
    · cases hnumber.symm.trans h
    · exact h.2
  · exact fun h => .inr ⟨⟨d, code, hnumber⟩, h⟩

/-- A failure is that of the number, and this is no overflow. -/
theorem parser_ne_overflow {c : Cursor} : f.parser here stop ≠ some (.failure c .overflow) := by
  intro h
  obtain ⟨d, code, hcode, hnumber⟩ := number_fails hno
  cases hnumber.symm.trans (number_of_parser_failure h)
  exact hcode rfl

end NoLiteral

/-- Of every text the parser recognises the one literal that it begins with, if it does: the number is
that literal, or an overflow behind it. Otherwise it reads a symbol, if symbols are known and the text
begins with one: "inf" or "nan", in any case and with a sign or none. It fails if there is neither. -/
theorem recognises_literals (f : RealFormat) (here stop : Cursor) :
    (∀ w s w' s', f.IsLiteral w s → f.IsLiteral w' s' → w ++ s = w' ++ s' → w = w') ∧
      (∀ c, ((∃ x, f.number here stop = some (.success c x)) ∨
          f.number here stop = some (.failure c .overflow)) ↔
        ∃ w s, here.rest stop = w ++ s ∧ f.IsLiteral w s ∧
          c = here.advance (Text.byteLength w)) ∧
      (∀ w s, here.rest stop = w ++ s → f.IsLiteral w s → ∃ d, IsNumeral w d ∧
        f.parser here stop = some (if f.format.InRange d
          then .success (here.advance (Text.byteLength w)) (f.format.ofDecimal d)
          else .failure (here.advance (Text.byteLength w)) .overflow)) ∧
      ((∀ w s, here.rest stop = w ++ s → ¬ f.IsLiteral w s) →
        (∀ c x, f.parser here stop = some (.success c x) ↔ f.symbols = true ∧
          ∃ w s, here.rest stop = w ++ s ∧ IsSymbol w x ∧
            c = here.advance (Text.byteLength w)) ∧
        ((∀ c x, f.parser here stop ≠ some (.success c x)) →
          ∃ c code, code ≠ .overflow ∧ f.parser here stop = some (.failure c code))) := by
  refine ⟨fun w s w' s' h h' heq => ?_, fun c => f.number_recognises, fun w s hrest h => ?_,
    fun hno => ⟨fun c x => ?_, fun hnone => ?_⟩⟩
  · obtain ⟨es, -, himage⟩ := h
    obtain ⟨es', -, himage'⟩ := h'
    exact (f.munches_numeral.unique ⟨es, himage⟩ ⟨es', himage'⟩ heq).1
  · obtain ⟨d, hd⟩ := h.exists_isNumeral
    exact ⟨d, hd, (h.parser_eq hrest).trans (h.number_eq hd hrest)⟩
  · rw [parser_eq_success_of_not_literal hno, symbol_eq_success]
  · obtain ⟨⟨c, code | x⟩, hr⟩ := f.finishes.exists
    · refine ⟨c, code, ?_, hr⟩
      rintro rfl
      exact parser_ne_overflow hno hr
    · exact absurd hr (hnone c x)

/-! ## Formats that hold nothing back -/

/-- Of numbers nothing is required and nothing is held back. -/
structure Liberal (f : RealFormat) : Prop where
  sign : f.sign = .allowed
  point : f.point = .allowed
  exponent : f.exponent = .allowed
  digits : f.digits = .any
  decimals : f.decimals = .any

theorem takes_allowed {sign : List Char} {negative : Bool} (h : IsSign sign negative)
    (hs : Stops (fun c => c == '+' || c == '-') s) : SignPolicy.allowed.Takes sign s := by
  cases h with
  | plus => exact .inl ⟨'+', by decide, rfl⟩
  | minus => exact .inl ⟨'-', by decide, rfl⟩
  | absent =>
    refine .inr ⟨rfl, nofun, fun c t ht => ?_⟩
    have hc := Bool.or_eq_false_iff.1 (hs c t ht)
    simp only [SignPolicy.signs, List.contains_cons, List.contains_nil, hc, Bool.or_self]

theorem cut_any {ds : List Char} (hds : Digits ds) (hs : Stops Predicate.isDigit s) :
    Cut .any Predicate.isDigit ds s := ⟨hds, ⟨Nat.zero_le _, nofun⟩, .inr hs⟩

/-- Every numeral is a literal then, unless it goes on into the text. -/
theorem Liberal.isLiteral (hf : f.Liberal) {d : Decimal} (hw : IsNumeral w d) (hs : Ends s) :
    f.IsLiteral w s := by
  obtain ⟨hsign, hm, -, he⟩ := hw
  obtain ⟨ds, p, fs, hds, hfs, hp, rfl, rfl, hne, rfl⟩ := hm.exists_parts
  obtain ⟨hdigit, hpoint⟩ := he.stops_digit hs
  rw [List.append_assoc]
  refine ⟨ds ++ fs, hne, .mk ?_ ?_ ?_ ?_⟩
  · rw [hf.sign]
    exact takes_allowed hsign (stops_sign_of_parts hds hp hne _)
  · rw [hf.digits]
    exact cut_any hds (hp.stops_digit hdigit)
  · rcases hp with ⟨rfl, rfl⟩ | rfl
    · refine .absent ?_ ?_ hpoint
      · rw [hf.point]
        exact nofun
      · rw [hf.decimals]
        rfl
    · refine .present ?_
      rw [hf.decimals]
      exact cut_any hfs hdigit
  · cases he with
    | absent =>
      refine .absent ?_ ?_
      · rw [hf.exponent]
        exact nofun
      · rintro - _ t rfl ⟨rfl | rfl, -, -⟩
        · exact hs.stops.2.2.1 _ rfl
        · exact hs.stops.2.2.2 _ rfl
    | present hc hesign heds hene =>
      refine .present ?_ (.mk hc ?_ ⟨heds, ⟨List.length_pos_iff.2 hene, nofun⟩, .inr hs.stops.1⟩)
      · rw [hf.exponent]
        exact nofun
      · exact takes_allowed hesign (heds.stops_sign hene s)

theorem accepts_number (hf : f.Liberal) {d : Decimal} (hw : IsNumeral w d)
    (hd : f.format.InRange d) (hs : Ends s) :
    f.number.Accepts (w ++ s) (f.format.ofDecimal d) s := by
  intro here stop hrest
  refine ⟨_, ?_, Cursor.rest_advance hrest⟩
  rw [(hf.isLiteral hw hs).number_eq hw hrest, if_pos hd]

end RealFormat

end PegParsing
