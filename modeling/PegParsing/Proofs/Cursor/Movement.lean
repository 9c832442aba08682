import Mathlib.Logic.Function.Iterate
import PegParsing.Proofs.Cursor.Window

/-!
# Moving through a window

`next?` reads one character. Reading on where it stopped (`Walks`) is reading a beginning of what the
window shows, whatever the window is (`walks_iff`), and `take` goes as far as so many steps of it do
(`take_eq_iterate`).

Between two borders of characters of one text (`Spans`) the text is all there: a walk that stops for
want of characters has read what is shown and has come to the end of the window, and the text between
two places is cut at a third one without loss (`movement_enumerates`).
-/

namespace PegParsing.Cursor

variable {here stop next last a b e : Cursor} {x : Char} {xs : List Char}

/-! ## One character -/

theorem next?_eq_none_iff : here.next? stop = none ↔ here.rest stop = [] := by
  unfold next? peek
  rw [Option.map_eq_none_iff, List.head?_eq_none_iff]

theorem next?_eq_some_iff : here.next? stop = some (x, next) ↔
    (∃ s, here.rest stop = x :: s) ∧ next = here.advance x.utf8Size := by
  unfold next? peek
  cases here.rest stop with
  | nil => exact ⟨nofun, fun h => nomatch h⟩
  | cons y s =>
    simp only [List.head?_cons, Option.map_some, Option.some.injEq, Prod.mk.injEq, List.cons.injEq,
      exists_eq_right']
    constructor
    · rintro ⟨rfl, rfl⟩
      exact ⟨rfl, rfl⟩
    · rintro ⟨rfl, rfl⟩
      exact ⟨rfl, rfl⟩

theorem rest_behind {s : List Char} (h : here.rest stop = x :: s) :
    (here.advance x.utf8Size).rest stop = s :=
  rest_advance (p := [x]) h

/-- The cursor behind the next character. It stays where nothing is left to read. -/
def behindNext (stop here : Cursor) : Cursor :=
  match here.next? stop with
  | none => here
  | some (_, next) => next

theorem behindNext_of_nil (h : here.rest stop = []) : behindNext stop here = here := by
  unfold behindNext
  rw [next?_eq_none_iff.2 h]

theorem behindNext_of_cons {s : List Char} (h : here.rest stop = x :: s) :
    behindNext stop here = here.advance x.utf8Size := by
  unfold behindNext
  rw [next?_eq_some_iff.2 ⟨⟨s, h⟩, rfl⟩]

/-! ## Many characters -/

/-- Before `stop`, the characters `xs` can be read from `here` on, one after the other, and this leads
to `last`. -/
inductive Walks : Cursor → Cursor → List Char → Cursor → Prop
  | nil (here stop : Cursor) : Walks here stop [] here
  | cons {here stop next last : Cursor} {x : Char} {xs : List Char} :
    here.next? stop = some (x, next) → Walks next stop xs last → Walks here stop (x :: xs) last

/-- A walk reads a beginning of what the window shows. -/
theorem walks_iff : here.Walks stop xs last ↔
    xs <+: here.rest stop ∧ last = here.advance (Text.byteLength xs) := by
  constructor
  · intro h
    induction h with
    | nil here stop => exact ⟨List.nil_prefix, rfl⟩
    | cons hnext _ ih =>
      -- behind its first character a window shows the others, of which the rest of the walk reads some
      obtain ⟨⟨s, hs⟩, rfl⟩ := next?_eq_some_iff.1 hnext
      rw [rest_behind hs] at ih
      obtain ⟨hxs, rfl⟩ := ih
      refine ⟨?_, advance_advance _ _ _⟩
      rw [hs]
      exact List.cons_prefix_cons.2 ⟨rfl, hxs⟩
  · rintro ⟨hxs, rfl⟩
    induction xs generalizing here with
    | nil => exact .nil here stop
    | cons x xs ih =>
      obtain ⟨s, hs⟩ := hxs
      have hrest : here.rest stop = x :: (xs ++ s) := hs.symm
      have hwalk := @ih (here.advance x.utf8Size) (by rw [rest_behind hrest]; exact ⟨s, rfl⟩)
      rw [advance_advance] at hwalk
      exact .cons (next?_eq_some_iff.2 ⟨⟨_, hrest⟩, rfl⟩) hwalk

theorem take_of_nil (h : here.rest stop = []) (n : Nat) : here.take stop n = here := by
  unfold take
  rw [h, List.take_nil, Text.byteLength_nil, advance_zero]

/-- Taking some characters is taking one and the others behind it. -/
theorem take_succ (here stop : Cursor) (n : Nat) :
    here.take stop (n + 1) = (behindNext stop here).take stop n := by
  cases h : here.rest stop with
  | nil => rw [take_of_nil h, behindNext_of_nil h, take_of_nil h]
  | cons x s =>
    rw [behindNext_of_cons h]
    unfold take
    rw [h, rest_behind h, List.take_succ_cons, Text.byteLength_cons, advance_advance]

theorem take_eq_iterate (here stop : Cursor) (n : Nat) :
    here.take stop n = (behindNext stop)^[n] here := by
  induction n generalizing here with
  | zero => exact advance_zero here
  | succ n ih => rw [take_succ, ih, Function.iterate_succ_apply]

theorem take_take (here stop : Cursor) (m n : Nat) :
    (here.take stop m).take stop n = here.take stop (m + n) := by
  rw [take_eq_iterate, take_eq_iterate, take_eq_iterate, Nat.add_comm, Function.iterate_add_apply]

theorem reaches_take (here stop : Cursor) (n : Nat) : here.Reaches stop (here.take stop n) :=
  ⟨_, List.take_prefix n _, rfl⟩

theorem textTo_take (here stop : Cursor) (n : Nat) :
    here.textTo (here.take stop n) = (here.rest stop).take n :=
  textTo_advance (List.take_append_drop n _).symm

/-! ## Between two borders -/

/-- Two borders of characters of one text, the second not before the first. -/
structure Spans (here stop : Cursor) : Prop where
  source : here.source = stop.source
  le : here.offset ≤ stop.offset
  onBorder : here.OnBorder
  stop_onBorder : stop.OnBorder

namespace Spans

theorem refl (h : here.OnBorder) : here.Spans here := ⟨rfl, Nat.le_refl _, h, h⟩

theorem trans (hab : a.Spans b) (hbe : b.Spans e) : a.Spans e :=
  ⟨hab.source.trans hbe.source, Nat.le_trans hab.le hbe.le, hab.onBorder, hbe.stop_onBorder⟩

/-- Every border in a window is reached. -/
theorem reaches (hab : a.Spans b) (hbe : b.Spans e) : a.Reaches e b := by
  obtain ⟨p, s, hp, hplen⟩ := hab.onBorder
  obtain ⟨q, t, hq, hqlen⟩ := hbe.onBorder
  obtain ⟨r, u, hr, hrlen⟩ := hbe.stop_onBorder
  rw [← hab.source] at hq
  rw [← hbe.source, ← hab.source] at hr
  -- of the texts before the three borders each begins the next
  obtain ⟨m, rfl⟩ := Text.prefix_of_byteLength_le ⟨s, hp.symm⟩ ⟨t, hq.symm⟩
    (hplen ▸ hqlen ▸ hab.le)
  obtain ⟨k, rfl⟩ := Text.prefix_of_byteLength_le ⟨t, hq.symm⟩ ⟨u, hr.symm⟩
    (hqlen ▸ hrlen ▸ hbe.le)
  rw [List.append_assoc p] at hr hrlen
  rw [Text.byteLength_append] at hqlen hrlen
  have hrest : a.rest e = m ++ k := rest_of_source hr hplen.symm (hplen ▸ hrlen)
  refine ⟨m, ⟨k, hrest.symm⟩, ?_⟩
  show (⟨b.source, b.offset⟩ : Cursor) = ⟨a.source, a.offset + Text.byteLength m⟩
  rw [hab.source, hqlen, hplen]

/-- Every place that is reached in a window is a border in it. -/
theorem of_reaches (hae : a.Spans e) (h : a.Reaches e b) : a.Spans b ∧ b.Spans e := by
  have hsource : a.source = b.source := by
    obtain ⟨p, -, rfl⟩ := h
    rfl
  have hb := h.onBorder hae.onBorder
  have hle : b.offset ≤ e.offset := Nat.max_eq_right hae.le ▸ h.offset_le_max
  exact ⟨⟨hsource, h.offset_le, hae.onBorder, hb⟩,
    ⟨hsource.symm.trans hae.source, hle, hb, hae.stop_onBorder⟩⟩

theorem remaining_eq (hae : a.Spans e) : a.remaining e = Text.byteLength (a.rest e) :=
  (hae.onBorder.byteLength_rest hae.stop_onBorder hae.source).symm

/-- Behind what is shown, the window ends. -/
theorem advance_rest (hae : a.Spans e) : a.advance (Text.byteLength (a.rest e)) = e := by
  show (⟨a.source, a.offset + Text.byteLength (a.rest e)⟩ : Cursor) = ⟨e.source, e.offset⟩
  rw [← hae.remaining_eq, remaining, Nat.add_sub_cancel' hae.le, hae.source]

theorem atEnd_iff (hae : a.Spans e) : a.atEnd e ↔ a.peek e = none := by
  unfold peek
  rw [List.head?_eq_none_iff, ← Text.byteLength_eq_zero, ← hae.remaining_eq, remaining,
    Nat.sub_eq_zero_iff_le]
  exact decide_eq_true_iff

theorem walks_to_stop_iff (hae : a.Spans e) :
    a.Walks e xs last ∧ last.next? e = none ↔ xs = a.rest e ∧ last = e := by
  rw [walks_iff]
  constructor
  · rintro ⟨⟨⟨s, hs⟩, rfl⟩, hnone⟩
    rw [next?_eq_none_iff, rest_advance hs.symm] at hnone
    rw [hnone, List.append_nil] at hs
    rw [hs]
    exact ⟨rfl, hae.advance_rest⟩
  · rintro ⟨rfl, rfl⟩
    refine ⟨⟨List.prefix_rfl, hae.advance_rest.symm⟩, next?_eq_none_iff.2 ?_⟩
    exact rest_of_atEnd (decide_eq_true (Nat.le_refl _))

end Spans

/-- Three borders of characters of one text, one behind the other. The text from the first to the last
is cut at the middle one without loss; it has as many bytes as are left, and the end is where there is
no next character. Reading character by character yields it, all of it and in order, and comes to the
last. Taking some characters is as many steps of that, or fewer where there are fewer: it leads to a
border in between, may be done in two goes, and passes over just so many characters. -/
theorem movement_enumerates (hab : a.Spans b) (hbe : b.Spans e) :
    a.textTo e = a.textTo b ++ b.textTo e ∧
    a.remaining e = Text.byteLength (a.rest e) ∧
    (a.atEnd e ↔ a.peek e = none) ∧
    (∀ cs c, a.Walks e cs c ∧ c.next? e = none ↔ cs = a.rest e ∧ c = e) ∧
    (∀ n, a.take e n = (behindNext e)^[n] a) ∧
    (∀ n, a.Spans (a.take e n) ∧ (a.take e n).Spans e) ∧
    (∀ m n, (a.take e m).take e n = a.take e (m + n)) ∧
    ∀ n, a.textTo (a.take e n) = (a.rest e).take (min n (a.rest e).length) := by
  have hae := hab.trans hbe
  refine ⟨?_, hae.remaining_eq, hae.atEnd_iff, fun cs c => hae.walks_to_stop_iff, take_eq_iterate a e,
    fun n => hae.of_reaches (reaches_take a e n), take_take a e, fun n => ?_⟩
  · have hstop : b.Reaches e e := hbe.reaches (.refl hbe.stop_onBorder)
    exact ((hab.reaches hbe).textTo_append hstop).symm
  · rw [textTo_take, List.take_eq_take_min]

/-- A text whose characters have one, two, three, four and one bytes, and three places in it. -/
theorem movement_mixed_widths :
    let text := "aé€😀!".toList
    let a : Cursor := ⟨text, 1⟩
    let b : Cursor := ⟨text, 3⟩
    let e : Cursor := ⟨text, 10⟩
    a.Spans b ∧ b.Spans e ∧ a.textTo e = a.textTo b ++ b.textTo e ∧
      a.Walks e "é€😀".toList e ∧ (a.take e 1).take e 7 = a.take e (1 + 7) ∧
      a.textTo (a.take e 2) = "é€".toList := by
  intro text a b e
  have hab : a.Spans b := ⟨rfl, by decide, ⟨"a".toList, "é€😀!".toList, by decide +kernel, rfl⟩,
    ⟨"aé".toList, "€😀!".toList, by decide +kernel, rfl⟩⟩
  have hbe : b.Spans e := ⟨rfl, by decide, hab.stop_onBorder,
    ⟨"aé€😀".toList, "!".toList, by decide +kernel, rfl⟩⟩
  have hrest : a.rest e = "é€😀".toList := by decide +kernel
  obtain ⟨hcut, -, -, hwalk, -, -, htake, htext⟩ := movement_enumerates hab hbe
  refine ⟨hab, hbe, hcut, ((hwalk _ e).2 ⟨hrest.symm, rfl⟩).1, htake 1 7, ?_⟩
  rw [htext, hrest]
  decide +kernel

end PegParsing.Cursor
