import PegParsing.Proofs.Parser.Munching

/-!
# Runs of characters

`LongestRun max accepts w s` says that `w` is the run of characters that a text `w ++ s` begins with,
taken as far as it goes or cut at an upper bound. A counted run of characters succeeds behind it, or
fails there if it is too short (`times_eq`).

White space is such a run. A character with white space on both sides reads one run, the character and
another run (`spacedChar_of_cons`). A blank stands for the first run alone, but the vertical tab, which is
white space too, is no blank: it is looked for behind all white space, where it cannot stand
(`spacedChar_reads`).
-/

namespace PegParsing

open Cursor

namespace Parser

variable {here stop : Cursor} {accepts : Char → Bool} {max : Option Nat} {w s : List Char}

/-- What is found where a character is asked for: the end of the window, or another character. -/
def unexpected (cs : List Char) : ErrorCode := if cs = [] then .unexpectedEof else .unexpectedChar

/-! ## One character -/

theorem charIf_of_stops (h : Stops accepts (here.rest stop)) :
    charIf accepts here stop = some (.failure here (unexpected (here.rest stop))) := by
  unfold charIf next? peek
  cases hrest : here.rest stop with
  | nil => rfl
  | cons c cs =>
    simp only [List.head?_cons, Option.map_some, h c cs hrest]
    rfl

theorem char_of_ne {c : Char} (h : ∀ t, here.rest stop ≠ c :: t) :
    char c here stop = some (.failure here (unexpected (here.rest stop))) := by
  refine map_eq_failure.2 (charIf_of_stops fun d t hd => beq_eq_false_iff_ne.2 ?_)
  rintro rfl
  exact h t hd

theorem char_of_cons {c : Char} {t : List Char} (h : here.rest stop = c :: t) :
    char c here stop = some (.success (here.advance (Text.byteLength [c])) ()) :=
  @Accepts.eq_success _ _ [c] t () (agrees_char c) (accepts_char c t) _ _ h

/-- Of several characters none follows. All alternatives fail at one place, so that the first of them
is reported. -/
theorem choice_char_of_stops {cs : List Char} (hne : cs ≠ [])
    (h : Stops (cs.contains ·) (here.rest stop)) :
    choice (cs.map char) here stop = some (.failure here (unexpected (here.rest stop))) := by
  induction cs with
  | nil => exact absurd rfl hne
  | cons c cs ih =>
    obtain ⟨hc, hcs⟩ := stops_contains_cons.1 h
    have hfirst := char_of_ne hc
    by_cases hnil : cs = []
    · rw [hnil]
      exact hfirst
    · rw [List.map_cons, choice_cons _ (mt List.map_eq_nil_iff.1 hnil), orElse_of_failure hfirst,
        ih hnil hcs, Option.map_some, Parsed.before_failure, Parsed.furthest_failure,
        if_neg (Nat.lt_irrefl _)]

/-! ## Many characters -/

/-- The run of characters before `s`, taken to its end or up to an upper bound. -/
structure LongestRun (max : Option Nat) (accepts : Char → Bool) (w s : List Char) : Prop where
  all : ∀ c ∈ w, accepts c = true
  le_max : ∀ n ∈ max, w.length ≤ n
  ends : max = some w.length ∨ Stops accepts s

/-- Every text begins with such a run. -/
theorem exists_longestRun (max : Option Nat) (accepts : Char → Bool) (cs : List Char) :
    ∃ w s, cs = w ++ s ∧ LongestRun max accepts w s := by
  obtain ⟨w, s, hcs, hall, hmax, hends⟩ := exists_cut max accepts cs
  exact ⟨w, s, hcs, hall, hmax, hends⟩

theorem longestRun_nil (h : ∀ c ∈ w, accepts c = true) : LongestRun none accepts w [] :=
  ⟨h, nofun, .inr nofun⟩

theorem LongestRun.rest_ne {c : Char} (h : LongestRun none accepts w s) (hc : accepts c = true)
    (t : List Char) : s ≠ c :: t := by
  rintro rfl
  rw [h.ends.resolve_left nofun c t rfl] at hc
  cases hc

/-- A counted run of characters ends where the run does, be it long enough or not. -/
theorem times_eq {b : Bounds} (hrest : here.rest stop = w ++ s)
    (h : LongestRun b.max accepts w s) :
    (times b (charIf accepts)).skip here stop =
      some (if w.length < b.min then .failure (here.advance (Text.byteLength w)) .tooFew
        else .success (here.advance (Text.byteLength w)) ()) := by
  have hagrees := agrees_times b (agrees_charIf accepts)
  obtain ⟨last, hrun, hs⟩ := (rounds_times h.all h.le_max h.ends).exists_run hagrees hrest
  -- what is left behind the run tells where it ends
  obtain ⟨v, hv, rfl⟩ := hrun.reaches (hagrees.forward stop)
  have hsplit := rest_advance_of_prefix hv
  rw [hs, hrest] at hsplit
  obtain rfl := List.append_cancel_right hsplit
  refine (Repetition.collect_eq_some_iff (hagrees.forward stop)).2 ⟨v, _, hrun, ?_⟩
  unfold Repetition.close
  show _ = Parsed.map _ (if v.length < b.min then _ else _)
  split <;> rfl

/-! ## White space -/

theorem textSpace_eq (hrest : here.rest stop = w ++ s)
    (hw : LongestRun none Predicate.isSpace w s) :
    textSpace here stop = some (.success (here.advance (Text.byteLength w)) ()) :=
  @times_eq _ _ _ _ _ .any hrest hw

/-- A blank stands for white space, be there any or none. -/
theorem spacedChar_of_isBlank {c : Char} (hc : Predicate.isBlank c = true)
    (hrest : here.rest stop = w ++ s) (hw : LongestRun none Predicate.isSpace w s) :
    spacedChar c here stop = some (.success (here.advance (Text.byteLength w)) ()) := by
  unfold spacedChar
  rw [bind_of_success (textSpace_eq hrest hw), if_pos hc]
  rfl

theorem spacedChar_of_cons {c : Char} (hc : Predicate.isBlank c = false) {v t : List Char}
    (hrest : here.rest stop = w ++ c :: (v ++ t))
    (hw : LongestRun none Predicate.isSpace w (c :: (v ++ t)))
    (hv : LongestRun none Predicate.isSpace v t) :
    spacedChar c here stop =
      some (.success (here.advance (Text.byteLength (w ++ c :: v))) ()) := by
  have hchar := rest_advance hrest
  have hspace := rest_advance (show _ = [c] ++ (v ++ t) from hchar)
  unfold spacedChar
  rw [bind_of_success (textSpace_eq hrest hw), hc, if_neg Bool.false_ne_true,
    bind_of_success (char_of_cons hchar), textSpace_eq hspace hv, advance_advance, advance_advance,
    ← Text.byteLength_append, ← Text.byteLength_append]
  rfl

theorem spacedChar_of_ne {c : Char} (hc : Predicate.isBlank c = false)
    (hrest : here.rest stop = w ++ s) (hw : LongestRun none Predicate.isSpace w s)
    (hne : ∀ t, s ≠ c :: t) : spacedChar c here stop =
      some (.failure (here.advance (Text.byteLength w)) (unexpected s)) := by
  have hs := rest_advance hrest
  have hchar := char_of_ne (hs ▸ hne)
  unfold spacedChar
  rw [bind_of_success (textSpace_eq hrest hw), hc, if_neg Bool.false_ne_true,
    bind_of_failure hchar, hs]

/-- White space is a blank or the vertical tab, and not both. -/
theorem isBlank_of_isSpace {c : Char} (h : Predicate.isSpace c = true) :
    Predicate.isBlank c = !(c == '\x0b') := by
  by_cases hc : c = '\x0b'
  · rw [hc]
    rfl
  · rw [((Predicate.isSpace_iff c).1 h).resolve_right hc, beq_eq_false_iff_ne.2 hc]
    rfl

/-- Behind all white space, a character with white space on both sides is read with what white space
follows, or missed. White space but for the vertical tab asks for nothing more; the vertical tab is
missed in every text. -/
theorem spacedChar_reads (c : Char) (here stop : Cursor) :
    ∃ w s, here.rest stop = w ++ s ∧ LongestRun none Predicate.isSpace w s ∧
      (Predicate.isSpace c = true → spacedChar c here stop = some (if c = '\x0b'
        then .failure (here.advance (Text.byteLength w)) (unexpected s)
        else .success (here.advance (Text.byteLength w)) ())) ∧
      (Predicate.isSpace c = false →
        (∀ t, s = c :: t → ∃ v u, t = v ++ u ∧ LongestRun none Predicate.isSpace v u ∧
          spacedChar c here stop =
            some (.success (here.advance (Text.byteLength (w ++ c :: v))) ())) ∧
        ((∀ t, s ≠ c :: t) → spacedChar c here stop =
          some (.failure (here.advance (Text.byteLength w)) (unexpected s)))) := by
  obtain ⟨w, s, hrest, hw⟩ := exists_longestRun none Predicate.isSpace (here.rest stop)
  refine ⟨w, s, hrest, hw, fun hspace => ?_, fun hspace => ?_⟩
  · have hblank := isBlank_of_isSpace hspace
    by_cases hc : c = '\x0b'
    · rw [beq_iff_eq.2 hc] at hblank
      rw [if_pos hc]
      -- no white space is left behind the run, and so no vertical tab
      exact spacedChar_of_ne hblank hrest hw (hw.rest_ne hspace)
    · rw [beq_eq_false_iff_ne.2 hc] at hblank
      rw [if_neg hc]
      exact spacedChar_of_isBlank hblank hrest hw
  · have hblank : Predicate.isBlank c = false := by
      refine Bool.eq_false_iff.2 fun hblank => ?_
      rw [(Predicate.isSpace_iff c).2 (.inl hblank)] at hspace
      cases hspace
    refine ⟨?_, spacedChar_of_ne hblank hrest hw⟩
    rintro t rfl
    obtain ⟨v, u, rfl, hv⟩ := exists_longestRun none Predicate.isSpace t
    exact ⟨v, u, rfl, hv, spacedChar_of_cons hblank hrest hw hv⟩

/-- The vertical tab is white space, but it does not stand for white space. -/
theorem spacedChar_vertical_tab : Predicate.isSpace '\x0b' = true ∧
    LongestRun none Predicate.isSpace ['\x0b'] [] ∧
      spacedChar '\x0b' (start ['\x0b']) (finish ['\x0b']) ≠ some (.success (finish ['\x0b']) ()) := by
  have hw : LongestRun none Predicate.isSpace ['\x0b'] [] :=
    longestRun_nil (List.forall_mem_singleton.2 rfl)
  have hrest : (start ['\x0b']).rest (finish ['\x0b']) = ['\x0b'] ++ [] := rest_start _
  refine ⟨rfl, hw, ?_⟩
  rw [spacedChar_of_ne rfl hrest hw nofun]
  exact nofun

end Parser

end PegParsing
