import Mathlib.Data.List.TakeDrop
import PegParsing.Number.Real
import PegParsing.Proofs.Number.Digits
import PegParsing.Proofs.Parser.Acceptance

/-!
# Decimal numerals as they are written

`IsNumeral w d` says in what ways the decimal `d` is written: a sign or none, digits with at most one
point among them, an exponent or none. The reader of numerals knows just these texts
(`ofChars?_eq_some_iff`). What the parser of real numbers reads is one of them (`reads_number`), and
it is the number that the decimal is rounded to, unless that is an overflow (`read_of_isNumeral`).
-/

namespace PegParsing

open PegParsing.Parser

namespace Decimal

/-- Decimal digits alone. -/
def Digits (ds : List Char) : Prop := ∀ c ∈ ds, Predicate.isDigit c = true

/-- A sign or none; `true` is a minus. -/
inductive IsSign : List Char → Bool → Prop
  | absent : IsSign [] false
  | plus : IsSign ['+'] false
  | minus : IsSign ['-'] true

/-- Digits with at most one point among them: all digits, and how many stand behind the point. -/
inductive IsMantissa : List Char → List Char → Nat → Prop
  | whole {ds : List Char} : Digits ds → ds ≠ [] → IsMantissa ds ds 0
  | point {ds fs : List Char} : Digits ds → ds ≠ [] → Digits fs →
      IsMantissa (ds ++ '.' :: fs) (ds ++ fs) fs.length
  | leadingPoint {fs : List Char} : Digits fs → fs ≠ [] → IsMantissa ('.' :: fs) fs fs.length

/-- An exponent or none. -/
inductive IsExponent : List Char → Int → Prop
  | absent : IsExponent [] 0
  | present {e : Char} {s ds : List Char} {negative : Bool} {n : Nat} : e = 'e' ∨ e = 'E' →
      IsSign s negative → Digits ds → ds ≠ [] → Radix.decimal.Denotes ds n →
      IsExponent (e :: (s ++ ds)) (if negative then -(n : Int) else n)

/-- A numeral and the decimal that it stands for. -/
inductive IsNumeral : List Char → Decimal → Prop
  | mk {s m e ds : List Char} {negative : Bool} {k n : Nat} {x : Int} : IsSign s negative →
      IsMantissa m ds k → Radix.decimal.Denotes ds n → IsExponent e x →
      IsNumeral (s ++ (m ++ e)) ⟨negative, n, x - k⟩

theorem Digits.denotes_iff {ds : List Char} {n : Nat} (h : Digits ds) :
    Radix.decimal.Denotes ds n ↔ n = Radix.decimal.value ds :=
  Radix.denotes_iff fun c hc => (Radix.isDigit_decimal c).trans (h c hc)

/-! ## Parts -/

/-- A point and the digits behind it, or nothing at all. -/
def IsFraction (w fs : List Char) : Prop := w = [] ∧ fs = [] ∨ w = '.' :: fs

theorem IsMantissa.exists_parts {m es : List Char} {k : Nat} (h : IsMantissa m es k) :
    ∃ ds w fs, Digits ds ∧ Digits fs ∧ IsFraction w fs ∧ m = ds ++ w ∧ es = ds ++ fs ∧ es ≠ [] ∧
      k = fs.length := by
  cases h with
  | whole hds hne =>
    exact ⟨m, [], [], hds, List.forall_mem_nil _, .inl ⟨rfl, rfl⟩, (List.append_nil m).symm,
      (List.append_nil m).symm, hne, rfl⟩
  | @point ds fs hds hne hfs =>
    exact ⟨ds, _, fs, hds, hfs, .inr rfl, rfl, rfl, List.append_ne_nil_of_left_ne_nil hne fs, rfl⟩
  | leadingPoint hfs hne => exact ⟨[], _, _, List.forall_mem_nil _, hfs, .inr rfl, rfl, rfl, hne, rfl⟩

theorem IsMantissa.digits {m es : List Char} {k : Nat} (h : IsMantissa m es k) : Digits es := by
  obtain ⟨ds, w, fs, hds, hfs, -, -, rfl, -⟩ := h.exists_parts
  exact List.forall_mem_append.2 ⟨hds, hfs⟩

theorem isMantissa_of_parts {ds w fs : List Char} (hds : Digits ds) (hfs : Digits fs)
    (hw : IsFraction w fs) (hne : ds ++ fs ≠ []) : IsMantissa (ds ++ w) (ds ++ fs) fs.length := by
  rcases hw with ⟨rfl, rfl⟩ | rfl
  · rw [List.append_nil] at hne ⊢
    exact .whole hds hne
  · by_cases hnil : ds = []
    · subst hnil
      exact .leadingPoint hfs hne
    · exact .point hds hnil hfs

/-- What a numeral may begin with. -/
def startsNumeral (c : Char) : Bool := Predicate.isDigit c || c == '+' || c == '-' || c == '.'

/-- Behind its sign, if it has one, a numeral has a digit or a point. -/
theorem IsNumeral.exists_sign_append {w : List Char} {d : Decimal} (hw : IsNumeral w d) :
    ∃ sign negative c t, IsSign sign negative ∧ w = sign ++ c :: t ∧
      (Predicate.isDigit c = true ∨ c = '.') := by
  obtain ⟨hs, hm, -, -⟩ := hw
  obtain ⟨ds, frac, fs, hds, -, hfrac, rfl, rfl, hne, -⟩ := hm.exists_parts
  cases ds with
  | cons c ds => exact ⟨_, _, c, _, hs, rfl, .inl (hds c List.mem_cons_self)⟩
  | nil =>
    rcases hfrac with ⟨rfl, rfl⟩ | rfl
    · exact absurd rfl hne
    · exact ⟨_, _, '.', _, hs, rfl, .inr rfl⟩

theorem IsNumeral.exists_head {w : List Char} {d : Decimal} (hw : IsNumeral w d) :
    ∃ c t, w = c :: t ∧ startsNumeral c = true := by
  obtain ⟨sign, negative, c, t, hsign, rfl, hc⟩ := hw.exists_sign_append
  cases hsign with
  | plus => exact ⟨'+', _, rfl, rfl⟩
  | minus => exact ⟨'-', _, rfl, rfl⟩
  | absent =>
    refine ⟨c, t, rfl, ?_⟩
    rcases hc with hc | rfl
    · unfold startsNumeral
      rw [hc]
      rfl
    · rfl

/-! ## Reading -/

theorem takeSign_spec (cs : List Char) :
    ∃ s, IsSign s (takeSign cs).1 ∧ cs = s ++ (takeSign cs).2 := by
  unfold takeSign
  split
  · exact ⟨['-'], .minus, rfl⟩
  · exact ⟨['+'], .plus, rfl⟩
  · exact ⟨[], .absent, rfl⟩

theorem takeSign_append {s cs : List Char} {negative : Bool} (h : IsSign s negative)
    (hcs : Stops (fun c => c == '+' || c == '-') cs) : takeSign (s ++ cs) = (negative, cs) := by
  cases h with
  | plus => rfl
  | minus => rfl
  | absent =>
    unfold takeSign
    split
    · rename_i h
      cases hcs _ _ h
    · rename_i h
      cases hcs _ _ h
    · rfl

theorem takeFraction_spec (cs : List Char) :
    ∃ w, IsFraction w (takeFraction cs).1 ∧ Digits (takeFraction cs).1 ∧
      cs = w ++ (takeFraction cs).2 := by
  unfold takeFraction
  split
  · rename_i cs
    rw [List.span_eq_takeWhile_dropWhile]
    refine ⟨'.' :: cs.takeWhile Predicate.isDigit, .inr rfl, fun c hc => List.mem_takeWhile_imp hc, ?_⟩
    rw [List.cons_append, List.takeWhile_append_dropWhile]
  · exact ⟨[], .inl ⟨rfl, rfl⟩, List.forall_mem_nil _, rfl⟩

theorem span_append {accepts : Char → Bool} {w s : List Char} (hw : ∀ c ∈ w, accepts c = true)
    (hs : Stops accepts s) : (w ++ s).span accepts = (w, s) := by
  rw [List.span_eq_takeWhile_dropWhile, List.takeWhile_append_of_pos hw,
    List.dropWhile_append_of_pos hw]
  cases s with
  | nil => simp
  | cons c s => simp [hs c s rfl]

theorem takeFraction_append {w fs s : List Char} (h : IsFraction w fs) (hfs : Digits fs)
    (hs : Stops (fun c => Predicate.isDigit c || c == '.') s) : takeFraction (w ++ s) = (fs, s) := by
  have hdigit : Stops Predicate.isDigit s := fun c t ht => (Bool.or_eq_false_iff.1 (hs c t ht)).1
  rcases h with ⟨rfl, rfl⟩ | rfl
  · unfold takeFraction
    split
    · rename_i h
      cases (Bool.or_eq_false_iff.1 (hs _ _ h)).2
    · rfl
  · exact span_append hfs hdigit

theorem Digits.stops_sign {ds : List Char} (h : Digits ds) (hne : ds ≠ []) (s : List Char) :
    Stops (fun c => c == '+' || c == '-') (ds ++ s) := by
  intro c t ht
  cases ds with
  | nil => exact absurd rfl hne
  | cons d ds =>
    obtain ⟨rfl, -⟩ := List.cons.inj ht
    have hd := h d List.mem_cons_self
    refine Bool.or_eq_false_iff.2 ⟨beq_eq_false_iff_ne.2 ?_, beq_eq_false_iff_ne.2 ?_⟩
    · rintro rfl
      cases hd
    · rintro rfl
      cases hd

theorem readExponent?_eq_some_iff {cs : List Char} {x : Int} :
    readExponent? cs = some x ↔ IsExponent cs x := by
  constructor
  · intro h
    unfold readExponent? at h
    split at h
    · cases h
      exact .absent
    rename_i e cs
    split at h
    · rename_i he
      obtain ⟨s, hs, hcs⟩ := takeSign_spec cs
      simp only at h
      generalize takeSign cs = signed at h hs hcs
      split at h
      · rename_i hds
        cases h
        rw [hcs]
        have hdigits : Digits signed.2 := List.all_eq_true.1 hds.2
        exact .present he hs hdigits hds.1 (hdigits.denotes_iff.2 rfl)
      · cases h
    · cases h
  · intro h
    cases h with
    | absent => rfl
    | @present e s ds negative n he hs hds hne hn =>
      obtain rfl := hds.denotes_iff.1 hn
      have hsign := hds.stops_sign hne []
      rw [List.append_nil] at hsign
      unfold readExponent?
      simp only
      rw [if_pos he, takeSign_append hs hsign]
      exact if_pos ⟨hne, List.all_eq_true.2 hds⟩

theorem IsExponent.stops {e : List Char} {x : Int} (h : IsExponent e x) :
    Stops (fun c => Predicate.isDigit c || c == '.') e := by
  intro c t ht
  cases h with
  | absent => cases ht
  | present he =>
    obtain ⟨rfl, -⟩ := List.cons.inj ht
    rcases he with rfl | rfl <;> rfl

theorem IsFraction.stops_digit {w fs t : List Char} (h : IsFraction w fs)
    (ht : Stops Predicate.isDigit t) : Stops Predicate.isDigit (w ++ t) := by
  rcases h with ⟨rfl, -⟩ | rfl
  · exact ht
  · intro c u hu
    obtain ⟨rfl, -⟩ := List.cons.inj hu
    rfl

/-- A mantissa does not begin with a sign. -/
theorem stops_sign_of_parts {ds w fs : List Char} (hds : Digits ds) (hw : IsFraction w fs)
    (hne : ds ++ fs ≠ []) (t : List Char) :
    Stops (fun c => c == '+' || c == '-') (ds ++ (w ++ t)) := by
  by_cases hnil : ds = []
  · subst hnil
    rcases hw with ⟨rfl, rfl⟩ | rfl
    · exact absurd rfl hne
    · intro c u hu
      obtain ⟨rfl, -⟩ := List.cons.inj hu
      rfl
  · exact hds.stops_sign hnil _

theorem head?_of_stops_sign {cs : List Char} (h : Stops (fun c => c == '+' || c == '-') cs) :
    cs.head? ≠ some '+' ∧ cs.head? ≠ some '-' := by
  cases cs with
  | nil => exact ⟨nofun, nofun⟩
  | cons c t =>
    obtain ⟨hplus, hminus⟩ := Bool.or_eq_false_iff.1 (h c t rfl)
    rw [List.head?_cons, ne_eq, ne_eq, Option.some.injEq, Option.some.injEq]
    exact ⟨beq_eq_false_iff_ne.1 hplus, beq_eq_false_iff_ne.1 hminus⟩

/-- The texts that the reader knows. -/
theorem ofChars?_eq_some_iff {w : List Char} {d : Decimal} : ofChars? w = some d ↔ IsNumeral w d := by
  constructor
  · intro h
    obtain ⟨s, hs, hw⟩ := takeSign_spec w
    unfold ofChars? at h
    simp only [List.span_eq_takeWhile_dropWhile] at h
    generalize takeSign w = signed at h hs hw
    obtain ⟨frac, hfrac, hdigits, hrest⟩ := takeFraction_spec (signed.2.dropWhile Predicate.isDigit)
    generalize takeFraction (signed.2.dropWhile Predicate.isDigit) = fraction at h hfrac hdigits hrest
    split at h
    · cases h
    rename_i hne
    obtain ⟨x, hx, rfl⟩ := Option.map_eq_some_iff.1 h
    have hds : Digits (signed.2.takeWhile Predicate.isDigit) := fun c hc => List.mem_takeWhile_imp hc
    have hm := isMantissa_of_parts hds hdigits hfrac hne
    have hnumeral := IsNumeral.mk hs hm (hm.digits.denotes_iff.2 rfl) (readExponent?_eq_some_iff.1 hx)
    rwa [List.append_assoc, ← hrest, List.takeWhile_append_dropWhile, ← hw] at hnumeral
  · rintro ⟨hs, hm, hn, he⟩
    obtain rfl := hm.digits.denotes_iff.1 hn
    obtain ⟨ds, frac, fs, hds, hfs, hfrac, rfl, rfl, hne, rfl⟩ := hm.exists_parts
    have hdigit := hfrac.stops_digit fun c t ht => (Bool.or_eq_false_iff.1 (he.stops c t ht)).1
    unfold ofChars?
    rw [List.append_assoc, takeSign_append hs (stops_sign_of_parts hds hfrac hne _)]
    simp only [span_append hds hdigit, takeFraction_append hfrac hfs he.stops, if_neg hne,
      readExponent?_eq_some_iff.2 he, Option.map_some]

/-! ## The mantissa -/

theorem mem_of_isFraction {w fs : List Char} {c : Char} (h : IsFraction w fs) (hc : c ∈ w) :
    c = '.' ∨ c ∈ fs := by
  rcases h with ⟨rfl, rfl⟩ | rfl
  · exact absurd hc List.not_mem_nil
  · exact List.mem_cons.1 hc

theorem mem_of_mem_fraction {w fs : List Char} {c : Char} (h : IsFraction w fs) (hc : c ∈ fs) :
    c ∈ w := by
  rcases h with ⟨rfl, rfl⟩ | rfl
  · exact absurd hc List.not_mem_nil
  · exact List.mem_cons_of_mem _ hc

/-- What stands before the exponent of a numeral is made of a sign, of digits and of a point. -/
theorem mantissa_eq {s ds frac fs e : List Char} {negative : Bool} {x : Int} (hs : IsSign s negative)
    (hds : Digits ds) (hfs : Digits fs) (hfrac : IsFraction frac fs) (he : IsExponent e x) :
    mantissa (s ++ (ds ++ (frac ++ e))) = s ++ (ds ++ frac) := by
  have hdigit : ∀ c, Predicate.isDigit c = true → (decide (c ≠ 'e' ∧ c ≠ 'E')) = true := by
    intro c hc
    refine decide_eq_true ⟨?_, ?_⟩
    · rintro rfl
      cases hc
    · rintro rfl
      cases hc
  have hall : ∀ c ∈ s ++ (ds ++ frac), (decide (c ≠ 'e' ∧ c ≠ 'E')) = true := by
    intro c hc
    rcases List.mem_append.1 hc with hc | hc
    · cases hs with
      | absent => cases hc
      | plus => rw [List.mem_singleton.1 hc]; rfl
      | minus => rw [List.mem_singleton.1 hc]; rfl
    rcases List.mem_append.1 hc with hc | hc
    · exact hdigit c (hds c hc)
    · rcases mem_of_isFraction hfrac hc with rfl | hc
      · rfl
      · exact hdigit c (hfs c hc)
  have hstop : Stops (fun c => decide (c ≠ 'e' ∧ c ≠ 'E')) e := by
    intro c t ht
    cases he with
    | absent => cases ht
    | present he =>
      obtain ⟨rfl, -⟩ := List.cons.inj ht
      rcases he with rfl | rfl <;> rfl
  have hspan := congrArg Prod.fst (span_append hall hstop)
  rw [List.span_eq_takeWhile_dropWhile] at hspan
  unfold mantissa
  simpa only [List.append_assoc] using hspan

theorem isDigit_iff {c : Char} : Predicate.isDigit c = true ↔ 48 ≤ c.toNat ∧ c.toNat ≤ 57 := by
  unfold Predicate.isDigit
  rw [decide_eq_true_iff, Char.le_def, Char.le_def, UInt32.le_iff_toNat_le, UInt32.le_iff_toNat_le]
  rfl

theorem nonzero_iff {c : Char} : '1' ≤ c ∧ c ≤ '9' ↔ 49 ≤ c.toNat ∧ c.toNat ≤ 57 := by
  rw [Char.le_def, Char.le_def, UInt32.le_iff_toNat_le, UInt32.le_iff_toNat_le]
  rfl

theorem value_singleton {c : Char} (h : Predicate.isDigit c = true) :
    Radix.decimal.value [c] = c.toNat - 48 := by
  have hrange : '0' ≤ c ∧ c ≤ '9' := of_decide_eq_true h
  show 0 * 10 + (digitValue? c).getD 0 = _
  unfold digitValue?
  rw [if_pos hrange, Nat.zero_mul, Nat.zero_add]
  rfl

/-- Digits stand for nothing just if all of them do. -/
theorem value_ne_zero_iff {ds : List Char} (h : Digits ds) :
    Radix.decimal.value ds ≠ 0 ↔ ∃ c ∈ ds, '1' ≤ c ∧ c ≤ '9' := by
  induction ds with
  | nil => exact iff_of_false (fun h => h rfl) nofun
  | cons c ds ih =>
    obtain ⟨hc, hds⟩ := List.forall_mem_cons.1 h
    have hvalue : Radix.decimal.value (c :: ds) =
        (c.toNat - 48) * Nat.pow 10 ds.length + Radix.decimal.value ds := by
      rw [← value_singleton hc]
      exact Radix.value_append _ [c] ds
    have hpow : 0 < Nat.pow 10 ds.length := Nat.pow_pos (by decide)
    have hzero : (c.toNat - 48) * Nat.pow 10 ds.length = 0 ↔ c.toNat - 48 = 0 := by
      rw [Nat.mul_eq_zero, or_iff_left (Nat.ne_of_gt hpow)]
    rw [isDigit_iff] at hc
    rw [hvalue, List.exists_mem_cons_iff, ← ih hds, nonzero_iff, ne_eq, Nat.add_eq_zero_iff, hzero]
    omega

theorem IsNumeral.any_isDigit {w : List Char} {d : Decimal} (h : IsNumeral w d) :
    (mantissa w).any Predicate.isDigit = true := by
  obtain ⟨hs, hm, -, he⟩ := h
  obtain ⟨ds, frac, fs, hds, hfs, hfrac, rfl, rfl, hne, rfl⟩ := hm.exists_parts
  rw [List.append_assoc, mantissa_eq hs hds hfs hfrac he]
  obtain ⟨c, hc⟩ := List.exists_mem_of_ne_nil _ hne
  rw [List.any_eq_true]
  rcases List.mem_append.1 hc with hc | hc
  · exact ⟨c, by simp [hc], hds c hc⟩
  · exact ⟨c, by simp [mem_of_mem_fraction hfrac hc], hfs c hc⟩

theorem IsNumeral.any_nonzero_iff {w : List Char} {d : Decimal} (h : IsNumeral w d) :
    ((mantissa w).any fun c => '1' ≤ c ∧ c ≤ '9') = true ↔ d.significand ≠ 0 := by
  obtain ⟨hs, hm, hn, he⟩ := h
  obtain rfl := hm.digits.denotes_iff.1 hn
  obtain ⟨ds, frac, fs, hds, hfs, hfrac, rfl, rfl, hne, rfl⟩ := hm.exists_parts
  rw [List.append_assoc, mantissa_eq hs hds hfs hfrac he,
    value_ne_zero_iff (List.forall_mem_append.2 ⟨hds, hfs⟩), List.any_eq_true]
  constructor
  · rintro ⟨c, hc, hnz⟩
    have hnz := of_decide_eq_true hnz
    refine ⟨c, ?_, hnz⟩
    rcases List.mem_append.1 hc with hc | hc
    · cases hs with
      | absent => cases hc
      | plus => rw [List.mem_singleton.1 hc] at hnz; exact absurd hnz (by decide)
      | minus => rw [List.mem_singleton.1 hc] at hnz; exact absurd hnz (by decide)
    rcases List.mem_append.1 hc with hc | hc
    · exact List.mem_append_left _ hc
    · rcases mem_of_isFraction hfrac hc with rfl | hc
      · exact absurd hnz (by decide)
      · exact List.mem_append_right _ hc
  · rintro ⟨c, hc, hnz⟩
    refine ⟨c, ?_, decide_eq_true hnz⟩
    rcases List.mem_append.1 hc with hc | hc
    · simp [hc]
    · simp [mem_of_mem_fraction hfrac hc]

end Decimal

/-! ## Parsing -/

/-- The decimal is rounded to a finite number, and to zero only if it is zero. -/
def BinaryFormat.InRange (f : BinaryFormat) (d : Decimal) : Prop :=
  (f.ofDecimal d).isInfinite = false ∧ ((f.ofDecimal d).isZero = true → d.significand = 0)

instance (f : BinaryFormat) (d : Decimal) : Decidable (f.InRange d) :=
  inferInstanceAs (Decidable (_ ∧ _))

theorem BinaryFormat.not_inRange_iff {f : BinaryFormat} {d : Decimal} : ¬ f.InRange d ↔
    (f.ofDecimal d).isInfinite = true ∨ (f.ofDecimal d).isZero = true ∧ d.significand ≠ 0 := by
  unfold InRange
  rw [not_and_or, Bool.not_eq_false, Classical.not_imp]

/-- A numeral does not go on into the text. -/
def Decimal.Ends (s : List Char) : Prop :=
  Stops (fun c => Predicate.isDigit c || c == '.' || c == 'e' || c == 'E') s

open Decimal

theorem Decimal.Ends.stops {s : List Char} (h : Ends s) :
    Stops Predicate.isDigit s ∧ (∀ t, s ≠ '.' :: t) ∧ (∀ t, s ≠ 'e' :: t) ∧ ∀ t, s ≠ 'E' :: t := by
  refine ⟨fun c t ht => ?_, ?_, ?_, ?_⟩
  · have hc := h c t ht
    simp only [Bool.or_eq_false_iff] at hc
    exact hc.1.1.1
  all_goals
    rintro t rfl
    cases h _ _ rfl

theorem Decimal.IsExponent.stops_digit {e t : List Char} {x : Int} (he : IsExponent e x)
    (ht : Ends t) : Stops Predicate.isDigit (e ++ t) ∧ ∀ u, e ++ t ≠ '.' :: u := by
  cases he with
  | absent => exact ⟨ht.stops.1, ht.stops.2.1⟩
  | present hc =>
    refine ⟨fun d u hu => ?_, fun u hu => ?_⟩
    · obtain ⟨rfl, -⟩ := List.cons.inj hu
      rcases hc with rfl | rfl <;> rfl
    · obtain ⟨rfl, -⟩ := List.cons.inj hu
      rcases hc with hc | hc <;> cases hc

namespace RealFormat

variable {f : RealFormat}

section Read

variable {here stop last c : Cursor} {image : List Char}

theorem read_of_isNumeral {d : Decimal} (hd : IsNumeral image d) : f.read here stop last image =
    if f.format.InRange d then .success last (f.format.ofDecimal d) else .failure last .overflow := by
  have hover : ((f.format.ofDecimal d).isInfinite = true ∨ (f.format.ofDecimal d).isZero = true ∧
      (mantissa image).any (fun c => '1' ≤ c ∧ c ≤ '9') = true) ↔ ¬ f.format.InRange d := by
    rw [hd.any_nonzero_iff, BinaryFormat.not_inRange_iff]
  unfold read
  simp only [hd.any_isDigit, ofChars?_eq_some_iff.2 hd]
  by_cases hrange : f.format.InRange d
  · rw [if_pos hrange]
    exact if_neg fun h => hover.1 h hrange
  · rw [if_neg hrange]
    exact if_pos (hover.2 hrange)

/-- What is no numeral is refused where it begins, and not for its size. -/
theorem read_of_not_isNumeral (h : ∀ d, ¬ IsNumeral image d) :
    ∃ code, code ≠ .overflow ∧ f.read here stop last image = .failure here code := by
  unfold read
  simp only
  split
  · refine ⟨_, ?_, rfl⟩
    split <;> decide
  split
  · exact ⟨.expectedType, by decide, rfl⟩
  · rename_i d hd
    exact absurd (ofChars?_eq_some_iff.1 hd) (h d)

theorem read_eq_success {x : BinaryFloat} : f.read here stop last image = .success c x ↔
    c = last ∧ ∃ d, IsNumeral image d ∧ f.format.InRange d ∧ x = f.format.ofDecimal d := by
  constructor
  · intro h
    by_cases hnumeral : ∃ d, IsNumeral image d
    · obtain ⟨d, hd⟩ := hnumeral
      rw [read_of_isNumeral hd] at h
      split at h
      · rename_i hrange
        cases h
        exact ⟨rfl, d, hd, hrange, rfl⟩
      · cases h
    · obtain ⟨code, -, hcode⟩ := read_of_not_isNumeral fun d hd => hnumeral ⟨d, hd⟩
      cases hcode.symm.trans h
  · rintro ⟨rfl, d, hd, hrange, rfl⟩
    rw [read_of_isNumeral hd, if_pos hrange]

theorem isNumeral_of_read_eq_overflow (h : f.read here stop last image = .failure c .overflow) :
    c = last ∧ ∃ d, IsNumeral image d := by
  by_cases hnumeral : ∃ d, IsNumeral image d
  · obtain ⟨d, hd⟩ := hnumeral
    rw [read_of_isNumeral hd] at h
    split at h
    · cases h
    · cases h
      exact ⟨rfl, d, hd⟩
  · obtain ⟨code, hne, hcode⟩ := read_of_not_isNumeral fun d hd => hnumeral ⟨d, hd⟩
    cases hcode.symm.trans h
    exact absurd rfl hne

end Read

theorem number_of_image {here stop last : Cursor} {image : List Char}
    (h : f.image here stop = some (.success last image)) :
    f.number here stop = some (f.read here stop last image) := by
  unfold number
  rw [h]
  rfl

theorem reads_number (f : RealFormat) : f.number.Reads fun w x =>
    ∃ d, IsNumeral w d ∧ f.format.InRange d ∧ x = f.format.ofDecimal d := by
  intro here stop c x h
  obtain ⟨⟨last, code | image⟩, himage, h⟩ := Option.map_eq_some_iff.1 h
  · cases h
  obtain ⟨rfl, hx⟩ := read_eq_success.1 h
  obtain ⟨v, hv, rfl⟩ := raw_eq_success.1 (exceptWhere_eq_success.1 himage).2
  obtain ⟨w, ⟨s, hs⟩, rfl⟩ : here.Reaches stop c := f.agrees_numeral.reaches hv
  rw [Cursor.textTo_advance hs.symm] at hx
  exact ⟨w, ⟨s, hs⟩, rfl, hx⟩

theorem rejects_number {cs : List Char} (h : ∀ w d, w <+: cs → ¬ IsNumeral w d) :
    f.number.Rejects cs := by
  refine f.reads_number.rejects (fun _ _ => f.finishes_number) ?_
  rintro w x hw ⟨d, hd, -⟩
  exact h w d hw hd

end RealFormat

end PegParsing
