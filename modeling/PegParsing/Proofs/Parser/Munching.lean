import PegParsing.Proofs.Parser.Acceptance
import PegParsing.Proofs.Parser.Outcomes

/-!
# Maximal munch

`Munches p T` says of a skip which part of a text it reads: the one way to cut the text that `T`
describes, and none if there is none, so that the skip fails. Since `T` sees what is left of the text
behind the part, it can say that a run of characters goes on as far as it may, or that something does
not follow.

There is one lemma for each combinator. Where one alternative is tried behind others, it is read only
if the text cannot be cut for these. A run of characters is cut where its characters or its upper
bound come to an end (`munches_times`).
-/

namespace PegParsing

open Cursor

namespace Parser

/-- The skip reads what `T` tells of the text, and fails on texts of which it tells nothing. -/
structure Munches (p : Parser Unit) (T : List Char → List Char → Prop) : Prop where
  accepts : ∀ {w s}, T w s → p.Accepts (w ++ s) () s
  rejects : ∀ {cs}, (∀ w s, cs = w ++ s → ¬ T w s) → p.Rejects cs

variable {p q : Parser Unit} {T U : List Char → List Char → Prop}
  {w s v t cs : List Char}

namespace Munches

theorem congr (h : p.Munches T) (hT : ∀ w s, T w s ↔ U w s) : p.Munches U :=
  ⟨fun hw => h.accepts ((hT _ _).2 hw), fun hno => h.rejects fun w s hcs hw =>
    hno w s hcs ((hT w s).1 hw)⟩

/-- There is one way to cut a text. -/
theorem unique (h : p.Munches T) (hw : T w s) (hv : T v t) (heq : w ++ s = v ++ t) :
    w = v ∧ s = t := by
  obtain ⟨c, hc, hs⟩ := h.accepts hw (rest_start (w ++ s))
  have hrest : (start (w ++ s)).rest (finish (w ++ s)) = v ++ t := (rest_start _).trans heq
  obtain ⟨d, hd, ht⟩ := h.accepts hv hrest
  cases hc.symm.trans hd
  obtain rfl : s = t := hs.symm.trans ht
  exact ⟨List.append_cancel_right heq, rfl⟩

/-- The skip succeeds just if the text can be cut, and stands behind the part that was cut off. -/
theorem eq_success_iff (h : p.Munches T) (hagrees : p.Agrees p) {here stop c : Cursor} :
    p here stop = some (.success c ()) ↔
      ∃ w s, here.rest stop = w ++ s ∧ T w s ∧ c = here.advance (Text.byteLength w) := by
  constructor
  · intro hc
    by_cases hcut : ∃ w s, here.rest stop = w ++ s ∧ T w s
    · obtain ⟨w, s, hrest, hw⟩ := hcut
      cases hc.symm.trans ((h.accepts hw).eq_success hagrees hrest)
      exact ⟨w, s, hrest, hw, rfl⟩
    · have hno : ∀ w s, here.rest stop = w ++ s → ¬ T w s :=
        fun w s hrest hw => hcut ⟨w, s, hrest, hw⟩
      obtain ⟨d, code, hd⟩ := h.rejects hno rfl
      cases hc.symm.trans hd
  · rintro ⟨w, s, hrest, hw, rfl⟩
    exact (h.accepts hw).eq_success hagrees hrest

end Munches

/-! ## Combinators -/

theorem munches_empty : empty.Munches fun w _ => w = [] where
  accepts := by
    rintro w s rfl
    exact accepts_succeed () s
  rejects hno := absurd rfl (hno [] _ rfl)

theorem munches_charIf (accepts : Char → Bool) :
    (charIf accepts).skip.Munches fun w _ => ∃ c, w = [c] ∧ accepts c = true where
  accepts := by
    rintro _ s ⟨c, rfl, hc⟩
    exact (accepts_charIf hc s).skip
  rejects hno := (rejects_charIf fun c s hcs =>
    Bool.eq_false_iff.2 fun hc => hno [c] s hcs ⟨c, rfl, hc⟩).skip

theorem munches_char (c : Char) : (char c).Munches fun w _ => w = [c] := by
  refine (munches_charIf (· == c)).congr fun w _ => ?_
  simp only [beq_iff_eq, exists_eq_right]

/-- Nothing is read where no such character follows. -/
theorem munches_reject_charIf (accepts : Char → Bool) :
    (reject (charIf accepts)).Munches fun w s => w = [] ∧ Stops accepts s where
  accepts := by
    rintro w s ⟨rfl, hs⟩
    exact Accepts.exceptWhere (rejects_charIf hs) (accepts_succeed () s)
  rejects := by
    intro cs hno
    cases cs with
    | nil => exact absurd ⟨rfl, nofun⟩ (hno [] [] rfl)
    | cons c cs =>
      by_cases hc : accepts c = true
      · exact rejects_exceptWhere (accepts_charIf hc cs)
      · refine absurd ⟨rfl, fun d t hd => ?_⟩ (hno [] (c :: cs) rfl)
        rw [← (List.cons.inj hd).1]
        exact Bool.eq_false_iff.2 hc

theorem munches_skips_nil : (skips []).Munches fun w _ => w = [] := munches_empty

/-- What a skip and those behind it read, one behind the other. -/
theorem Munches.skips (hp : p.Munches T) {ps : List (Parser Unit)}
    (hps : (Parser.skips ps).Munches U) :
    (Parser.skips (p :: ps)).Munches fun w s => ∃ u v, w = u ++ v ∧ T u (v ++ s) ∧ U v s where
  accepts := by
    rintro _ s ⟨u, v, rfl, hu, hv⟩
    have haccepts := hp.accepts hu
    rw [← List.append_assoc] at haccepts
    exact haccepts.skips (hps.accepts hv)
  rejects := by
    intro cs hno
    by_cases hcut : ∃ u m, cs = u ++ m ∧ T u m
    · obtain ⟨u, m, rfl, hu⟩ := hcut
      refine (hp.accepts hu).skips_rejects (hps.rejects ?_)
      rintro v s rfl hv
      exact hno (u ++ v) s (List.append_assoc u v s).symm ⟨u, v, rfl, hu, hv⟩
    · exact (hp.rejects fun u m hcs hu => hcut ⟨u, m, hcs, hu⟩).skips ps

theorem Munches.skips_singleton (hp : p.Munches T) : (Parser.skips [p]).Munches T := by
  refine (hp.skips munches_skips_nil).congr fun w s => ?_
  constructor
  · rintro ⟨u, _, rfl, hu, rfl⟩
    rwa [List.append_nil]
  · intro hw
    exact ⟨w, [], (List.append_nil w).symm, hw, rfl⟩

theorem Munches.enabled (hp : p.Munches T) (on : Bool) :
    (Parser.enabled on p).Munches fun w s => on = true ∧ T w s where
  accepts := by
    rintro w s ⟨rfl, hw⟩
    exact hp.accepts hw
  rejects := by
    intro cs hno
    cases on with
    | false => exact rejects_failAt _ cs
    | true => exact hp.rejects fun w s hcs hw => hno w s hcs ⟨rfl, hw⟩

/-- The alternatives behind the first are tried where the text cannot be cut for it. -/
theorem Munches.choice (hp : p.Munches T) {ps : List (Parser Unit)}
    (hps : (Parser.choice ps).Munches U) : (Parser.choice (p :: ps)).Munches fun w s =>
      T w s ∨ U w s ∧ ∀ v t, w ++ s = v ++ t → ¬ T v t where
  accepts := by
    rintro w s (hw | ⟨hw, hno⟩)
    · exact (hp.accepts hw).choice ps
    · exact (hp.rejects hno).choice (hps.accepts hw)
  rejects := by
    intro cs hno
    have hfirst : ∀ w s, cs = w ++ s → ¬ T w s := fun w s hcs hw => hno w s hcs (.inl hw)
    by_cases hnil : ps = []
    · rw [hnil]
      exact hp.rejects hfirst
    · rw [choice_cons p hnil]
      refine (hp.rejects hfirst).orElse (hps.rejects fun w s hcs hw => ?_)
      refine hno w s hcs (.inr ⟨hw, fun v t heq => hfirst v t (hcs.trans heq)⟩)

theorem Munches.either (hp : p.Munches T) (hq : q.Munches U) :
    (Parser.choice [p, q]).Munches fun w s => T w s ∨ U w s ∧ ∀ v t, w ++ s = v ++ t → ¬ T v t :=
  hp.choice (show (Parser.choice [q]).Munches U from hq)

/-! ## Characters -/

theorem append_ne_singleton {c d : Char} (h : d ≠ c) : ∀ v t, [d] ++ s = v ++ t → v ≠ [c] := by
  rintro v t heq rfl
  exact h (List.cons.inj heq).1

theorem munches_choice_char (cs : List Char) :
    (choice (cs.map char)).Munches fun w _ => ∃ c ∈ cs, w = [c] := by
  induction cs with
  | nil => exact ⟨fun ⟨_, hc, _⟩ => absurd hc List.not_mem_nil, fun _ => rejects_failAt _ _⟩
  | cons c cs ih =>
    refine ((munches_char c).choice ih).congr fun w s => ?_
    rw [List.exists_mem_cons_iff]
    refine or_congr_right' fun hne => and_iff_left_of_imp ?_
    rintro ⟨d, -, rfl⟩
    exact append_ne_singleton fun hd => hne (by rw [hd])

theorem stops_contains_cons {c : Char} {cs : List Char} : Stops ((c :: cs).contains ·) s ↔
    (∀ t, s ≠ c :: t) ∧ Stops (cs.contains ·) s := by
  unfold Stops
  simp only [List.contains_cons, Bool.or_eq_false_iff, beq_eq_false_iff_ne]
  constructor
  · intro h
    exact ⟨fun t hs => (h c t hs).1 rfl, fun d t hs => (h d t hs).2⟩
  · rintro ⟨hc, h⟩ d t rfl
    refine ⟨?_, h d t rfl⟩
    rintro rfl
    exact hc t rfl

/-- One of some characters, or nothing where none of them follows. -/
theorem munches_choice_char_empty (cs : List Char) : (choice (cs.map char ++ [empty])).Munches
    fun w s => (∃ c ∈ cs, w = [c]) ∨ w = [] ∧ Stops (cs.contains ·) s := by
  induction cs with
  | nil =>
    refine munches_empty.congr fun w s => ⟨fun hw => .inr ⟨hw, fun _ _ _ => rfl⟩, ?_⟩
    rintro (⟨c, hc, -⟩ | ⟨hw, -⟩)
    · exact absurd hc List.not_mem_nil
    · exact hw
  | cons c cs ih =>
    refine ((munches_char c).choice ih).congr fun w s => ?_
    rw [List.exists_mem_cons_iff, or_assoc, stops_contains_cons]
    refine or_congr_right' fun hne => ?_
    constructor
    · rintro ⟨hd | ⟨rfl, hs⟩, hno⟩
      · exact .inl hd
      · exact .inr ⟨rfl, fun t hst => hno [c] t hst rfl, hs⟩
    · rintro (⟨d, hd, rfl⟩ | ⟨rfl, hc, hs⟩)
      · exact ⟨.inl ⟨d, hd, rfl⟩, append_ne_singleton fun hd => hne (by rw [hd])⟩
      · refine ⟨.inr ⟨rfl, hs⟩, ?_⟩
        rintro v t hst rfl
        exact hc t hst

/-! ## Runs of characters -/

/-- A run of as many characters as the bounds allow, to its end or up to the upper bound. -/
def Cut (b : Bounds) (accepts : Char → Bool) (w s : List Char) : Prop :=
  (∀ c ∈ w, accepts c = true) ∧ b.Allows w.length ∧ (b.max = some w.length ∨ Stops accepts s)

/-- Every text begins with a run to its end or up to the upper bound. -/
theorem exists_cut (max : Option Nat) (accepts : Char → Bool) (cs : List Char) :
    ∃ w s, cs = w ++ s ∧ (∀ c ∈ w, accepts c = true) ∧ (∀ n ∈ max, w.length ≤ n) ∧
      (max = some w.length ∨ Stops accepts s) := by
  have hall : ∀ c ∈ cs.takeWhile accepts, accepts c = true := fun c hc => List.mem_takeWhile_imp hc
  by_cases hlong : ∃ n ∈ max, n < (cs.takeWhile accepts).length
  · obtain ⟨n, hn, hlt⟩ := hlong
    have hlen : ((cs.takeWhile accepts).take n).length = n := List.length_take_of_le (Nat.le_of_lt hlt)
    refine ⟨(cs.takeWhile accepts).take n, (cs.takeWhile accepts).drop n ++ cs.dropWhile accepts,
      ?_, fun c hc => hall c (List.mem_of_mem_take hc), fun m hm => ?_, .inl ?_⟩
    · rw [← List.append_assoc, List.take_append_drop, List.takeWhile_append_dropWhile]
    · cases hn.symm.trans hm
      exact Nat.le_of_eq hlen
    · rw [hlen]
      exact hn
  · exact ⟨_, _, List.takeWhile_append_dropWhile.symm, hall,
      fun n hn => Nat.le_of_not_lt fun hlt => hlong ⟨n, hn, hlt⟩, .inr (stops_dropWhile accepts cs)⟩

theorem munches_times (b : Bounds) (accepts : Char → Bool) :
    (times b (charIf accepts)).skip.Munches (Cut b accepts) where
  accepts := by
    rintro w s ⟨hw, ⟨hmin, hmax⟩, hs⟩
    exact (rounds_times hw hmax hs).accepts (agrees_times b (agrees_charIf _)) hmin .nothing
  rejects := by
    intro cs hno
    obtain ⟨w, s, rfl, hw, hmax, hs⟩ := exists_cut b.max accepts cs
    have hmin : w.length < b.min :=
      Nat.lt_of_not_le fun hmin => hno w s rfl ⟨hw, ⟨hmin, hmax⟩, hs⟩
    exact (rounds_times hw hmax hs).rejects (agrees_times b (agrees_charIf _)) hmin .nothing

end Parser

end PegParsing
