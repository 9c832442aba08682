import Mathlib.Data.List.TakeWhile
import PegParsing.Proofs.Parser.Choice
import PegParsing.Proofs.Parser.Finishing
import PegParsing.Proofs.Parser.Reading
import PegParsing.Proofs.Parser.Sequence

/-!
# What a parser accepts

`Accepts p cs v s` says that on every window that shows `cs` the parser succeeds with `v` and leaves
`s`, and `Rejects p cs` that it fails there. They are passed on from the parts of a combinator to the
combinator, so that the run of a grammar on a text can be followed from one part to the next.

A repetition is followed round by round (`Rounds`); each of its items must read something.
-/

namespace PegParsing

open Cursor

variable {α β σ : Type}

namespace Parser

/-- On a window that shows `cs` the parser succeeds with `v` and leaves `s`. -/
def Accepts (p : Parser α) (cs : List Char) (v : α) (s : List Char) : Prop :=
  ∀ ⦃here stop⦄, here.rest stop = cs → ∃ c, p here stop = some (.success c v) ∧ c.rest stop = s

/-- On a window that shows `cs` the parser fails. -/
def Rejects (p : Parser α) (cs : List Char) : Prop :=
  ∀ ⦃here stop⦄, here.rest stop = cs → ∃ c code, p here stop = some (.failure c code)

/-- A run of such characters does not go on into `s`. -/
def Stops (accepts : Char → Bool) (s : List Char) : Prop := ∀ c t, s = c :: t → accepts c = false

variable {p q : Parser α} {cs mid s : List Char} {v : α}

/-! ## Combinators -/

/-- A parser that finishes and finds nothing that it could read fails. -/
theorem Reads.rejects {Q : List Char → α → Prop} (h : p.Reads Q)
    (hfin : ∀ here stop, p.Finishes here stop) (hno : ∀ w v, w <+: cs → ¬ Q w v) : p.Rejects cs := by
  intro here stop hrest
  obtain ⟨⟨c, code | v⟩, hr⟩ := (hfin here stop).exists
  · exact ⟨c, code, hr⟩
  · obtain ⟨w, hw, -, hQ⟩ := h hr
    rw [hrest] at hw
    exact absurd hQ (hno w v hw)

theorem accepts_succeed (v : α) (cs : List Char) : (succeed v).Accepts cs v cs :=
  fun here _ h => ⟨here, rfl, h⟩

theorem rejects_failAt (code : ErrorCode) (cs : List Char) : (failAt code : Parser α).Rejects cs :=
  fun here _ _ => ⟨here, code, rfl⟩

theorem Accepts.bind {f : α → Parser β} {w : β} (hp : p.Accepts cs v mid)
    (hf : (f v).Accepts mid w s) : (p.bind f).Accepts cs w s := by
  intro here stop hrest
  obtain ⟨d, hd, hmid⟩ := hp hrest
  obtain ⟨c, hc, hs⟩ := hf hmid
  exact ⟨c, bind_eq_success.2 ⟨d, v, hd, hc⟩, hs⟩

theorem Accepts.bind_rejects {f : α → Parser β} (hp : p.Accepts cs v mid) (hf : (f v).Rejects mid) :
    (p.bind f).Rejects cs := by
  intro here stop hrest
  obtain ⟨d, hd, hmid⟩ := hp hrest
  obtain ⟨c, code, hc⟩ := hf hmid
  exact ⟨c, code, (bind_of_success hd f).trans hc⟩

theorem Rejects.bind {f : α → Parser β} (hp : p.Rejects cs) : (p.bind f).Rejects cs := by
  intro here stop hrest
  obtain ⟨c, code, hc⟩ := hp hrest
  exact ⟨c, code, bind_of_failure hc f⟩

theorem Accepts.map (hp : p.Accepts cs v s) (f : α → β) : (p.map f).Accepts cs (f v) s := by
  rw [map_eq_bind]
  exact hp.bind (accepts_succeed _ _)

theorem Rejects.map (hp : p.Rejects cs) (f : α → β) : (p.map f).Rejects cs := by
  rw [map_eq_bind]
  exact hp.bind

theorem Accepts.skip (hp : p.Accepts cs v s) : p.skip.Accepts cs () s := hp.map _

theorem Rejects.skip (hp : p.Rejects cs) : p.skip.Rejects cs := hp.map _

/-- What is read from a window is what is missing from what is left. -/
theorem Accepts.eq_success (hagrees : p.Agrees p) (hp : p.Accepts (mid ++ s) v s)
    {here stop : Cursor} (hrest : here.rest stop = mid ++ s) :
    p here stop = some (.success (here.advance (Text.byteLength mid)) v) := by
  obtain ⟨c, hc, hs⟩ := hp hrest
  obtain ⟨w, hw, rfl⟩ : here.Reaches stop c := hagrees.reaches hc
  have hsplit := rest_advance_of_prefix hw
  rw [hs, hrest] at hsplit
  rwa [List.append_cancel_right hsplit] at hc

theorem Accepts.raw (hagrees : p.Agrees p) (hp : p.Accepts (mid ++ s) v s) :
    p.raw.Accepts (mid ++ s) mid s := by
  intro here stop hrest
  refine ⟨_, raw_eq_success.2 ⟨v, hp.eq_success hagrees hrest, ?_⟩, rest_advance hrest⟩
  rw [textTo_advance hrest]

theorem Accepts.exceptWhere {non : Parser β} (hn : non.Rejects cs) (hp : p.Accepts cs v s) :
    (exceptWhere non p).Accepts cs v s := by
  intro here stop hrest
  obtain ⟨d, code, hd⟩ := hn hrest
  obtain ⟨c, hc, hs⟩ := hp hrest
  exact ⟨c, exceptWhere_eq_success.2 ⟨⟨d, code, hd⟩, hc⟩, hs⟩

theorem rejects_exceptWhere {non : Parser β} {u : β} (hn : non.Accepts cs u mid) :
    (exceptWhere non p).Rejects cs := by
  intro here stop hrest
  obtain ⟨d, hd, -⟩ := hn hrest
  refine ⟨here, .symbolNotExpected, ?_⟩
  unfold Parser.exceptWhere
  rw [hd]
  rfl

/-! ## Skips -/

theorem skips_cons (p : Parser Unit) (ps : List (Parser Unit)) :
    skips (p :: ps) = p.bind fun _ => skips ps := by
  unfold skips
  rw [sequence_empty, List.map_cons, sequenceTail, sequence_empty]
  unfold Parser.skip
  simp only [map_eq_bind, bind_assoc, succeed_bind, empty]

theorem Accepts.skips {p : Parser Unit} {ps : List (Parser Unit)} (hp : p.Accepts cs () mid)
    (hps : (Parser.skips ps).Accepts mid () s) : (Parser.skips (p :: ps)).Accepts cs () s := by
  rw [skips_cons]
  exact hp.bind hps

theorem Accepts.skips_rejects {p : Parser Unit} {ps : List (Parser Unit)} (hp : p.Accepts cs () mid)
    (hps : (Parser.skips ps).Rejects mid) : (Parser.skips (p :: ps)).Rejects cs := by
  rw [skips_cons]
  exact hp.bind_rejects hps

theorem Rejects.skips {p : Parser Unit} (hp : p.Rejects cs) (ps : List (Parser Unit)) :
    (Parser.skips (p :: ps)).Rejects cs := by
  rw [skips_cons]
  exact hp.bind

/-! ## Choice -/

theorem Accepts.orElse (hp : p.Accepts cs v s) : (orElse p q).Accepts cs v s := by
  intro here stop hrest
  obtain ⟨c, hc, hs⟩ := hp hrest
  exact ⟨c, orElse_eq_success.2 (.inl hc), hs⟩

theorem Rejects.orElse_accepts (hp : p.Rejects cs) (hq : q.Accepts cs v s) :
    (orElse p q).Accepts cs v s := by
  intro here stop hrest
  obtain ⟨d, code, hd⟩ := hp hrest
  obtain ⟨c, hc, hs⟩ := hq hrest
  exact ⟨c, orElse_eq_success.2 (.inr ⟨⟨d, code, hd⟩, hc⟩), hs⟩

theorem Rejects.orElse (hp : p.Rejects cs) (hq : q.Rejects cs) : (orElse p q).Rejects cs := by
  intro here stop hrest
  obtain ⟨d, code, hd⟩ := hp hrest
  obtain ⟨e, other, he⟩ := hq hrest
  obtain ⟨c, last, hlast⟩ := Parsed.exists_failure_furthest (α := α) d e code other
  refine ⟨c, last, ?_⟩
  rw [orElse_of_failure hd, he, Option.map_some, Parsed.before_failure, hlast]

theorem Accepts.choice (hp : p.Accepts cs v s) (ps : List (Parser α)) :
    (choice (p :: ps)).Accepts cs v s := by
  cases ps with
  | nil => exact hp
  | cons q ps => exact hp.orElse

theorem Rejects.choice {ps : List (Parser α)} (hp : p.Rejects cs)
    (hps : (choice ps).Accepts cs v s) : (choice (p :: ps)).Accepts cs v s := by
  cases ps with
  | nil =>
    intro here stop hrest
    obtain ⟨c, hc, -⟩ := hps hrest
    cases hc
  | cons q ps => exact hp.orElse_accepts hps

theorem rejects_choice {ps : List (Parser α)} (h : ∀ p ∈ ps, p.Rejects cs) :
    (choice ps).Rejects cs := by
  induction ps with
  | nil => exact rejects_failAt _ _
  | cons p ps ih =>
    obtain ⟨hp, hps⟩ := List.forall_mem_cons.1 h
    by_cases hnil : ps = []
    · rw [hnil]
      exact hp
    · rw [choice_cons p hnil]
      exact hp.orElse (ih hps)

/-! ## Characters and texts -/

theorem accepts_charIf {accepts : Char → Bool} {c : Char} (hc : accepts c = true) (s : List Char) :
    (charIf accepts).Accepts (c :: s) c s := by
  intro here stop hrest
  have hchar : here.rest stop = [c] ++ s := hrest
  exact ⟨_, charIf_eq_success.2 ⟨⟨s, hrest⟩, hc, rfl⟩, rest_advance hchar⟩

theorem rejects_charIf {accepts : Char → Bool} (h : Stops accepts cs) :
    (charIf accepts).Rejects cs := by
  intro here stop hrest
  unfold charIf next? peek
  rw [hrest]
  cases cs with
  | nil => exact ⟨here, .unexpectedEof, rfl⟩
  | cons c s =>
    simp only [List.head?_cons, Option.map_some, h c s rfl]
    exact ⟨here, .unexpectedChar, rfl⟩

theorem accepts_char (c : Char) (s : List Char) : (char c).Accepts (c :: s) () s :=
  (@accepts_charIf (· == c) c (beq_self_eq_true c) s).skip

theorem rejects_char {c : Char} (h : ∀ s, cs ≠ c :: s) : (char c).Rejects cs := by
  refine (rejects_charIf fun d s hd => beq_eq_false_iff_ne.2 ?_).skip
  rintro rfl
  exact h s hd

theorem accepts_literal (text s : List Char) : (literal .exact text).Accepts (text ++ s) () s :=
  fun _ _ hrest => ⟨_, literal_of_shown hrest rfl, rest_advance hrest⟩

theorem rejects_literal {text : List Char} (h : ∀ s, cs ≠ text ++ s) :
    (literal .exact text).Rejects cs := by
  intro here stop hrest
  refine ⟨here, _, literal_of_not_shown fun w s hcs hw => h s ?_⟩
  rw [LetterCase.map_foldChar_exact, LetterCase.map_foldChar_exact] at hw
  rw [← hrest, hcs, hw]

end Parser

/-! ## Repetitions -/

namespace Repetition

open PegParsing.Parser

variable {r : Repetition α} {count : Nat} {cs mid s : List Char} {v : α} {vs : List α}

/-- The rounds of a repetition on a text, if each item reads something. -/
inductive Rounds (r : Repetition α) : Nat → List Char → List α → List Char → Prop
  | full {count : Nat} {cs : List Char} : r.bounds.full count = true → Rounds r count cs [] cs
  | failed {count : Nat} {cs : List Char} : r.bounds.full count = false →
      (r.round count).Rejects cs → Rounds r count cs [] cs
  | next {count : Nat} {cs mid s : List Char} {v : α} {vs : List α} : r.bounds.full count = false →
      (r.round count).Accepts cs v mid → mid.length < cs.length → Rounds r (count + 1) mid vs s →
      Rounds r count cs (v :: vs) s

theorem Rounds.exists_run (hr : r.Agrees r) (h : Rounds r count cs vs s) {here stop : Cursor}
    (hrest : here.rest stop = cs) :
    ∃ last, Run r stop count here vs last ∧ last.rest stop = s := by
  induction h generalizing here with
  | full hfull => exact ⟨here, .full hfull, hrest⟩
  | failed hfull hround =>
    obtain ⟨c, code, hc⟩ := hround hrest
    exact ⟨here, .failed hfull hc, hrest⟩
  | next hfull hround hlt _ ih =>
    obtain ⟨c, hc, hmid⟩ := hround hrest
    obtain ⟨last, hrun, hs⟩ := ih hmid
    refine ⟨last, .next hfull hc (fun hst => ?_) hrun, hs⟩
    -- an item that moved nothing would leave as much as there was
    obtain rfl : c = here := (hr.forward stop hc).eq_of_offset_le (Nat.le_of_eq hst.1)
    rw [← hmid, ← hrest] at hlt
    exact Nat.lt_irrefl _ hlt

theorem Rounds.accepts (hr : r.Agrees r) (h : Rounds r 0 cs vs s) (hmin : r.bounds.min ≤ vs.length)
    (into : Container α σ) : (r.collect into).Accepts cs (into.extend into.empty vs) s := by
  intro here stop hrest
  obtain ⟨last, hrun, hs⟩ := h.exists_run hr hrest
  exact ⟨last, (collect_eq_success (hr.forward stop)).2 ⟨vs, hrun, hmin, rfl⟩, hs⟩

theorem Rounds.rejects (hr : r.Agrees r) (h : Rounds r 0 cs vs s) (hmin : vs.length < r.bounds.min)
    (into : Container α σ) : (r.collect into).Rejects cs := by
  intro here stop hrest
  obtain ⟨last, hrun, -⟩ := h.exists_run hr hrest
  refine ⟨last, .tooFew, (collect_eq_some_iff (hr.forward stop)).2 ⟨vs, last, hrun, ?_⟩⟩
  rw [close, if_pos hmin]
  rfl

/-- A separator that reads nothing reads nothing in the first round either. -/
theorem accepts_separatorAt (hsep : ∀ cs, r.separator.Accepts cs () cs) (count : Nat)
    (cs : List Char) : (r.separatorAt count).Accepts cs () cs := by
  unfold separatorAt
  split
  · exact accepts_succeed () cs
  · exact hsep cs

/-- A repetition whose items are single characters, with nothing between them, reads a run of them to
its end or up to its upper bound. -/
theorem rounds_run {r : Repetition α} {accepts : Char → Bool} {f : Char → α}
    (hsep : ∀ cs, r.separator.Accepts cs () cs)
    (hitem : ∀ c s, accepts c = true → r.item.Accepts (c :: s) (f c) s)
    (hstop : ∀ s, Stops accepts s → r.item.Rejects s) {w s : List Char}
    (hw : ∀ c ∈ w, accepts c = true) (hmax : ∀ n ∈ r.bounds.max, count + w.length ≤ n)
    (hs : r.bounds.max = some (count + w.length) ∨ Stops accepts s) :
    Rounds r count (w ++ s) (w.map f) s := by
  have hat := accepts_separatorAt hsep
  induction w generalizing count with
  | nil =>
    by_cases hfull : r.bounds.full count = true
    · exact .full hfull
    · have hs := hs.resolve_left (mt (Bounds.full_iff hmax).2 hfull)
      exact .failed (Bool.eq_false_iff.2 hfull) ((hat count s).bind_rejects (hstop s hs))
  | cons c w ih =>
    obtain ⟨hc, hw⟩ := List.forall_mem_cons.1 hw
    rw [List.length_cons, Nat.add_comm w.length, ← Nat.add_assoc] at hmax hs
    have hfull : r.bounds.full count = false := by
      refine Bool.eq_false_iff.2 fun hfull => ?_
      have hcount : ∀ n ∈ r.bounds.max, count ≤ n := fun n hn => Nat.le_trans (by omega) (hmax n hn)
      have hle := hmax count ((Bounds.full_iff hcount).1 hfull)
      omega
    exact .next hfull ((hat count _).bind (hitem c (w ++ s) hc)) (Nat.lt_succ_self _) (ih hw hmax hs)

theorem rounds_characters {r : Repetition α} (hmax : r.bounds.max = none)
    {accepts : Char → Bool} {f : Char → α} (hsep : ∀ cs, r.separator.Accepts cs () cs)
    (hitem : ∀ c s, accepts c = true → r.item.Accepts (c :: s) (f c) s)
    (hstop : ∀ s, Stops accepts s → r.item.Rejects s) {w s : List Char}
    (hw : ∀ c ∈ w, accepts c = true) (hs : Stops accepts s) (count : Nat) :
    Rounds r count (w ++ s) (w.map f) s :=
  rounds_run hsep hitem hstop hw (by rw [hmax]; exact nofun) (.inr hs)

end Repetition

/-! ## Runs of characters and white space -/

namespace Parser

theorem rounds_times {b : Bounds} {accepts : Char → Bool} {w s : List Char}
    (hw : ∀ c ∈ w, accepts c = true) (hmax : ∀ n ∈ b.max, w.length ≤ n)
    (hs : b.max = some w.length ∨ Stops accepts s) :
    (times b (charIf accepts)).Rounds 0 (w ++ s) w s := by
  have hrounds : (times b (charIf accepts)).Rounds 0 (w ++ s) (w.map id) s :=
    Repetition.rounds_run (accepts_succeed ()) (fun c s hc => accepts_charIf hc s)
      (fun s => rejects_charIf) hw (by rwa [Nat.zero_add]) (by rwa [Nat.zero_add])
  rwa [List.map_id] at hrounds

/-- A run of characters is read to its end. -/
theorem accepts_times {b : Bounds} (hmax : b.max = none) {accepts : Char → Bool} {w s : List Char}
    (hmin : b.min ≤ w.length) (hw : ∀ c ∈ w, accepts c = true) (hs : Stops accepts s)
    (into : Container Char σ) :
    ((times b (charIf accepts)).collect into).Accepts (w ++ s) (into.extend into.empty w) s :=
  (rounds_times hw (by rw [hmax]; exact nofun) (.inr hs)).accepts
    (agrees_times b (agrees_charIf _)) hmin into

/-- The text behind the white space it begins with. -/
def trim (cs : List Char) : List Char := cs.dropWhile Predicate.isSpace

theorem stops_dropWhile (accepts : Char → Bool) (cs : List Char) :
    Stops accepts (cs.dropWhile accepts) := by
  intro c t h
  have hhead := List.head?_dropWhile_not accepts cs
  rw [h] at hhead
  exact hhead

theorem accepts_textSpace (cs : List Char) : textSpace.Accepts cs () (trim cs) := by
  have h := @accepts_times _ .any rfl Predicate.isSpace (cs.takeWhile Predicate.isSpace) (trim cs)
    (Nat.zero_le _) (fun c hc => List.mem_takeWhile_imp hc) (stops_dropWhile _ _) .nothing
  rw [trim, List.takeWhile_append_dropWhile] at h
  exact h

theorem accepts_spacedChar {c : Char} (hc : Predicate.isBlank c = false) {cs s : List Char}
    (h : trim cs = c :: s) : (spacedChar c).Accepts cs () (trim s) := by
  unfold spacedChar
  rw [hc]
  have hspace := accepts_textSpace cs
  rw [h] at hspace
  exact hspace.bind ((accepts_char c s).bind (accepts_textSpace s))

theorem rejects_spacedChar {c : Char} (hc : Predicate.isBlank c = false) {cs : List Char}
    (h : ∀ s, trim cs ≠ c :: s) : (spacedChar c).Rejects cs := by
  unfold spacedChar
  rw [hc]
  exact (accepts_textSpace cs).bind_rejects (rejects_char h).bind

end Parser

end PegParsing
