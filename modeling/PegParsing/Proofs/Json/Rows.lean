import Mathlib.Data.List.DropRight
import PegParsing.Proofs.Json.Parts

/-!
# Rows in brackets

`Takes p w v` says that the parser reads the text `w` as the value `v` whatever follows it. It does not
expect the white space that `w` begins with, which has been read before, and may read some of what
follows, so that two places in a text that the parser can stand at are told apart up to white space only.

A row of items in brackets is taken if its items are (`takes_bracketed`).
-/

namespace PegParsing

open PegParsing.Parser Decimal

/-! ## White space -/

namespace Parser

theorem trim_append_of_spaces {a : List Char} (ha : Spaces a) (s : List Char) :
    trim (a ++ s) = trim s := List.dropWhile_append_of_pos ha

theorem trim_append {w : List Char} (h : trim w ≠ []) (s : List Char) : trim (w ++ s) = trim w ++ s := by
  unfold trim at h ⊢
  rw [List.dropWhile_append, if_neg]
  rwa [List.isEmpty_iff]

theorem trim_cons {c : Char} (hc : Predicate.isSpace c = false) (s : List Char) :
    trim (c :: s) = c :: s := by
  unfold trim
  rw [List.dropWhile_cons, hc]
  rfl

theorem trim_trim (s : List Char) : trim (trim s) = trim s := List.dropWhile_idempotent _ _

theorem length_trim_le (s : List Char) : (trim s).length ≤ s.length :=
  List.length_dropWhile_le _ _

theorem exists_spaces_append_trim (s : List Char) : ∃ a, Spaces a ∧ s = a ++ trim s :=
  ⟨s.takeWhile Predicate.isSpace, fun _ hc => List.mem_takeWhile_imp hc,
    List.takeWhile_append_dropWhile.symm⟩

theorem Stops.append {accepts : Char → Bool} {a s : List Char} (ha : ∀ c ∈ a, accepts c = false)
    (hs : Stops accepts s) : Stops accepts (a ++ s) := by
  intro c t h
  cases a with
  | nil => exact hs c t h
  | cons d a =>
    obtain ⟨rfl, -⟩ := List.cons.inj h
    exact ha d List.mem_cons_self

theorem stops_cons {accepts : Char → Bool} {c : Char} (hc : accepts c = false) (s : List Char) :
    Stops accepts (c :: s) := by
  intro d t h
  obtain ⟨rfl, -⟩ := List.cons.inj h
  exact hc

end Parser

theorem eq_of_isSpace {c : Char} (h : Predicate.isSpace c = true) :
    c = ' ' ∨ c = '\t' ∨ c = '\n' ∨ c = '\r' ∨ c = '\x0b' ∨ c = '\x0c' := by
  unfold Predicate.isSpace at h
  simpa only [List.contains_iff_mem, List.mem_cons, List.not_mem_nil, or_false] using h

theorem Spaces.ends {a s : List Char} (ha : Spaces a) (hs : Ends s) : Ends (a ++ s) := by
  refine Stops.append (fun c hc => ?_) hs
  rcases eq_of_isSpace (ha c hc) with rfl | rfl | rfl | rfl | rfl | rfl <;> rfl

namespace Padded

variable {c : Char} {w : List Char}

theorem exists_trim (h : Padded c w) (hc : Predicate.isSpace c = false) :
    ∃ b, Spaces b ∧ trim w = c :: b := by
  obtain ⟨a, b, ha, hb, rfl⟩ := h
  exact ⟨b, hb, (trim_append_of_spaces ha _).trans (trim_cons hc b)⟩

theorem trim_append (h : Padded c w) (hc : Predicate.isSpace c = false) (s : List Char) :
    ∃ b, Spaces b ∧ trim (w ++ s) = c :: (b ++ s) := by
  obtain ⟨b, hb, hw⟩ := h.exists_trim hc
  refine ⟨b, hb, ?_⟩
  rw [Parser.trim_append (by rw [hw]; exact List.cons_ne_nil c b), hw]
  rfl

theorem ends (h : Padded c w) (hc : Ends [c]) (s : List Char) : Ends (w ++ s) := by
  obtain ⟨a, b, ha, -, rfl⟩ := h
  rw [List.append_assoc]
  exact ha.ends (stops_cons (hc c [] rfl) (b ++ s))

theorem accepts (h : Padded c w) (hc : Predicate.isSpace c = false) {cs s : List Char}
    (hcs : trim cs = trim (w ++ s)) : (spacedChar c).Accepts cs () (trim s) := by
  obtain ⟨b, hb, hw⟩ := h.trim_append hc s
  have hblank : Predicate.isBlank c = false := by
    rw [← Bool.not_eq_true] at hc ⊢
    exact fun hblank => hc ((Predicate.isSpace_iff c).2 (.inl hblank))
  rw [← trim_append_of_spaces hb s]
  exact accepts_spacedChar hblank (hcs.trans hw)

end Padded

/-- What follows an item does not go on with a numeral. -/
theorem Following.ends {ws : List (List Char)} {u tail : List Char} (h : Following (Padded ',') ws u)
    (ht : Ends tail) : Ends (u ++ tail) := by
  cases h with
  | nil => exact ht
  | cons hs _ =>
    rw [List.append_assoc]
    refine hs.ends ?_ _
    exact stops_cons rfl []

/-! ## Lengths -/

theorem Padded.length_pos {c : Char} {w : List Char} (h : Padded c w) : 0 < w.length := by
  obtain ⟨a, b, -, -, rfl⟩ := h
  rw [List.length_append, List.length_cons]
  omega

theorem Following.length_le {sep : List Char → Prop} {ws : List (List Char)} {u w : List Char}
    (h : Following sep ws u) (hw : w ∈ ws) : w.length ≤ u.length := by
  induction h with
  | nil => cases hw
  | cons _ _ ih =>
    rw [List.length_append, List.length_append]
    rcases List.mem_cons.1 hw with rfl | hw
    · omega
    · have hle := ih hw
      omega

theorem Separated.length_le {sep : List Char → Prop} {ws : List (List Char)} {t w : List Char}
    (h : Separated sep ws t) (hw : w ∈ ws) : w.length ≤ t.length := by
  cases ws with
  | nil => cases hw
  | cons v ws =>
    obtain ⟨u, hu, rfl⟩ := h
    rw [List.length_append]
    rcases List.mem_cons.1 hw with rfl | hw
    · omega
    · have hle := hu.length_le hw
      omega

/-! ## Taking a text -/

/-- The parser reads the text, but for the white space that it begins with, and perhaps white space
behind it. -/
structure Parser.Takes (p : Parser Value) (w : List Char) (v : Value) : Prop where
  ne_nil : trim w ≠ []
  accepts : ∀ ⦃tail⦄, Ends tail → ∃ a s, Spaces a ∧ tail = a ++ s ∧ p.Accepts (trim w ++ tail) v s

/-- A text that does not begin with white space, and behind which nothing is read. -/
theorem Parser.takes_of_accepts {p : Parser Value} {c : Char} {t : List Char} {v : Value}
    (hc : Predicate.isSpace c = false)
    (h : ∀ tail, Ends tail → p.Accepts (c :: t ++ tail) v tail) : p.Takes (c :: t) v := by
  have htrim := trim_cons hc t
  refine ⟨?_, fun tail htail => ⟨[], tail, List.forall_mem_nil _, rfl, ?_⟩⟩
  · rw [htrim]
    exact List.cons_ne_nil c t
  · rw [htrim]
    exact h tail htail

section Choice

variable {p : Parser Value} {ps : List (Parser Value)} {w : List Char} {v : Value}

theorem Parser.Takes.choice (hp : p.Takes w v) (ps : List (Parser Value)) :
    (Parser.choice (p :: ps)).Takes w v := by
  refine ⟨hp.ne_nil, fun tail htail => ?_⟩
  obtain ⟨a, s, ha, hsplit, haccepts⟩ := hp.accepts htail
  exact ⟨a, s, ha, hsplit, haccepts.choice ps⟩

/-- An alternative that fails at the first character of the text makes no difference. -/
theorem Parser.Takes.choice_cons {c : Char} {t : List Char} (hw : trim w = c :: t)
    (hp : ∀ t, p.Rejects (c :: t)) (hps : (Parser.choice ps).Takes w v) :
    (Parser.choice (p :: ps)).Takes w v := by
  refine ⟨hps.ne_nil, fun tail htail => ?_⟩
  obtain ⟨a, s, ha, hsplit, haccepts⟩ := hps.accepts htail
  refine ⟨a, s, ha, hsplit, ?_⟩
  rw [hw] at haccepts ⊢
  exact (hp _).choice haccepts

end Choice

namespace Catalog.Json

variable {item : Parser Value} {es : List (List Char × Value)} {count : Nat} {w tail cs : List Char}

theorem full_row (count : Nat) : (row item).bounds.full count = false := rfl

/-- The items behind the first. -/
theorem rounds_following (h : ∀ e ∈ es, item.Takes e.1 e.2)
    (hw : Following (Padded ',') (es.map Prod.fst) w) (ht : Ends tail)
    (hcomma : ∀ t, trim tail ≠ ',' :: t) (hcs : trim cs = trim (w ++ tail)) (hcount : count ≠ 0) :
    ∃ s, trim s = trim tail ∧ Repetition.Rounds (row item) count cs (es.map Prod.snd) s := by
  have hsep : (row item).separatorAt count = (Terminal.ofSkip (spacedChar ',')).skip :=
    if_neg hcount
  induction es generalizing count w cs with
  | nil =>
    cases hw
    refine ⟨cs, hcs, .failed (full_row count) ?_⟩
    unfold Repetition.round
    rw [hsep]
    have hreject : (spacedChar ',').Rejects cs :=
      rejects_spacedChar rfl fun t ht => hcomma t (hcs.symm.trans ht)
    exact (hreject.map _).skip.bind
  | cons e es ih =>
    obtain ⟨he, hes⟩ := List.forall_mem_cons.1 h
    rw [List.map_cons] at hw
    cases hw with
    | @cons s _ u _ hs hu =>
      obtain ⟨a, rest, ha, hrest, haccepts⟩ := he.accepts (hu.ends ht)
      have htrim : trim rest = trim (u ++ tail) := by rw [hrest, trim_append_of_spaces ha]
      obtain ⟨last, hlast, hrounds⟩ :=
        ih hes hu htrim (Nat.succ_ne_zero count) (if_neg (Nat.succ_ne_zero count))
      have hcs' : trim cs = trim (s ++ (e.1 ++ (u ++ tail))) := by
        rw [hcs, List.append_assoc, List.append_assoc]
      refine ⟨last, hlast, .next (full_row count) ?_ ?_ hrounds⟩
      · unfold Repetition.round
        rw [hsep]
        have hskip := ((hs.accepts rfl hcs').map fun _ => Value.nothing).skip
        rw [trim_append he.ne_nil] at hskip
        exact hskip.bind haccepts
      · -- at least the comma was read, whatever white space before it had been read already
        obtain ⟨b, -, hb⟩ := hs.trim_append rfl (e.1 ++ (u ++ tail))
        have hlen := congrArg List.length (hcs'.trans hb)
        have hle := length_trim_le cs
        have hsuffix := congrArg List.length hrest
        simp only [List.length_cons, List.length_append] at hlen hsuffix
        omega

/-- The items from the first, or none of them. -/
theorem rounds_separated (h : ∀ e ∈ es, item.Takes e.1 e.2)
    (hw : Separated (Padded ',') (es.map Prod.fst) w) (ht : Ends tail)
    (hcomma : ∀ t, trim tail ≠ ',' :: t) (hitem : item.Rejects (trim tail)) :
    ∃ s, trim s = trim tail ∧
      Repetition.Rounds (row item) 0 (trim (w ++ tail)) (es.map Prod.snd) s := by
  have hround : (row item).round 0 = item := rfl
  cases es with
  | nil =>
    obtain rfl : w = [] := hw
    refine ⟨trim tail, trim_trim tail, .failed (full_row 0) ?_⟩
    rw [hround]
    exact hitem
  | cons e es =>
    obtain ⟨he, hes⟩ := List.forall_mem_cons.1 h
    obtain ⟨u, hu, rfl⟩ := hw
    obtain ⟨a, rest, ha, hrest, haccepts⟩ := he.accepts (hu.ends ht)
    have htrim : trim rest = trim (u ++ tail) := by rw [hrest, trim_append_of_spaces ha]
    obtain ⟨last, hlast, hrounds⟩ := rounds_following hes hu ht hcomma htrim Nat.one_ne_zero
    rw [List.append_assoc, trim_append he.ne_nil]
    refine ⟨last, hlast, .next (full_row 0) ?_ ?_ hrounds⟩
    · rw [hround]
      exact haccepts
    · have hpos := List.length_pos_of_ne_nil he.ne_nil
      have hsuffix := congrArg List.length hrest
      simp only [List.length_append] at hsuffix ⊢
      omega

/-- Brackets make a text longer. -/
theorem length_bracketed {o c : Char} {l r : List Char} (hl : Padded o l) (hr : Padded c r)
    (w : List Char) : w.length + 2 ≤ (l ++ (w ++ r)).length := by
  have hlpos := hl.length_pos
  have hrpos := hr.length_pos
  rw [List.length_append, List.length_append]
  omega

/-- What does not begin with the opening bracket is not read. -/
theorem rejects_bracketed {o c : Char} (ho : Predicate.isBlank o = false)
    (hc : Predicate.isSpace c = false) (hne : c ≠ o) (t : List Char) (f : Value → Parser Value) :
    ((Terminal.ofSkip (spacedChar o)).bind f).Rejects (c :: t) := by
  refine ((rejects_spacedChar ho fun s ht => ?_).map _).bind
  rw [trim_cons hc] at ht
  exact hne (List.cons.inj ht).1

/-- Items with commas between them, in brackets. -/
theorem takes_bracketed {o c : Char} {l r : List Char} {body : Parser Value} {v : Value}
    (ho : Predicate.isSpace o = false) (hc : Predicate.isSpace c = false) (hends : Ends [c])
    (hne : c ≠ ',') (hl : Padded o l) (hr : Padded c r) (h : ∀ e ∈ es, item.Takes e.1 e.2)
    (hw : Separated (Padded ',') (es.map Prod.fst) w) (hitem : ∀ t, item.Rejects (c :: t))
    (hbody : ∀ cs s, Repetition.Rounds (row item) 0 cs (es.map Prod.snd) s → body.Accepts cs v s) :
    ((Terminal.ofSkip (spacedChar o)).bind fun _ => body.bind fun u =>
      (Terminal.ofSkip (spacedChar c)).map fun _ => u).Takes (l ++ (w ++ r)) v := by
  obtain ⟨b, -, hb⟩ := hl.exists_trim ho
  have hnil : trim l ≠ [] := by
    rw [hb]
    exact List.cons_ne_nil o b
  have htrim := trim_append hnil (w ++ r)
  refine ⟨?_, fun tail _ => ?_⟩
  · rw [htrim]
    exact List.append_ne_nil_of_left_ne_nil hnil _
  obtain ⟨d, -, hd⟩ := hr.trim_append hc tail
  have hcomma : ∀ t, trim (r ++ tail) ≠ ',' :: t := by
    intro t ht
    exact hne (List.cons.inj (hd.symm.trans ht)).1
  have hreject : item.Rejects (trim (r ++ tail)) := by
    rw [hd]
    exact hitem _
  obtain ⟨s, hs, hrounds⟩ := rounds_separated h hw (hr.ends hends tail) hcomma hreject
  obtain ⟨a, ha, htail⟩ := exists_spaces_append_trim tail
  refine ⟨a, trim tail, ha, htail, ?_⟩
  have hopen : (spacedChar o).Accepts (trim (l ++ (w ++ r)) ++ tail) () (trim (w ++ (r ++ tail))) := by
    refine hl.accepts ho ?_
    rw [htrim, List.append_assoc, ← trim_append hnil, trim_trim, List.append_assoc]
  exact (hopen.map _).bind ((hbody _ _ hrounds).bind (((hr.accepts hc hs).map _).map _))

end Catalog.Json

end PegParsing
