import PegParsing.Cursor

/-!
# Places in a window, and windows that show the same

A place in a window is reached from its beginning by reading whole characters of what it shows
(`Reaches`). Such a place is never before the beginning and never behind the end, and it is a border
of characters whenever the beginning is one.

Two windows `ShowsSame` when they show one text and have both come to their ends or neither. They go
on showing the same as long as one part of that text is read in both (`ShowsSame.advance`). Nothing
else about the two texts and the two offsets enters.
-/

namespace PegParsing.Cursor

/-- `c` stands behind whole characters of what the window between `here` and `stop` shows. -/
def Reaches (here stop c : Cursor) : Prop :=
  ∃ p, p <+: here.rest stop ∧ c = here.advance (Text.byteLength p)

/-- A character begins at `c`, or the text ends there. -/
def OnBorder (c : Cursor) : Prop :=
  ∃ p s, c.source = p ++ s ∧ c.offset = Text.byteLength p

theorem rest_advance_of_prefix {here stop : Cursor} {p : List Char} (h : p <+: here.rest stop) :
    p ++ (here.advance (Text.byteLength p)).rest stop = here.rest stop := by
  obtain ⟨s, hs⟩ := h
  rw [rest_advance hs.symm, hs]

/-- Parts read one behind the other are one part. -/
theorem append_prefix {here stop : Cursor} {p q : List Char} (hp : p <+: here.rest stop)
    (hq : q <+: (here.advance (Text.byteLength p)).rest stop) : p ++ q <+: here.rest stop := by
  obtain ⟨s, hs⟩ := hq
  exact ⟨s, by rw [List.append_assoc, hs, rest_advance_of_prefix hp]⟩

theorem advance_byteLength_append (here : Cursor) (p q : List Char) :
    here.advance (Text.byteLength (p ++ q)) =
      (here.advance (Text.byteLength p)).advance (Text.byteLength q) := by
  rw [Text.byteLength_append, advance_advance]

/-- The window on a whole text shows it. -/
theorem rest_start (text : List Char) : (start text).rest (finish text) = text :=
  rest_of_source (p := []) (s := []) (List.append_nil text).symm rfl (Nat.zero_add _).symm

/-- Between two borders of characters, a window shows as many bytes as are left to its end. -/
theorem OnBorder.byteLength_rest {here stop : Cursor} (hhere : here.OnBorder) (hstop : stop.OnBorder)
    (hsource : here.source = stop.source) :
    Text.byteLength (here.rest stop) = here.remaining stop := by
  by_cases hle : stop.offset ≤ here.offset
  · rw [rest_of_atEnd (decide_eq_true hle), Text.byteLength_nil, remaining, Nat.sub_eq_zero_of_le hle]
  · obtain ⟨p, s, hp, hplen⟩ := hhere
    obtain ⟨q, t, hq, hqlen⟩ := hstop
    obtain ⟨m, rfl⟩ := Text.prefix_of_byteLength_le ⟨s, hp.symm⟩ ⟨t, (hsource.trans hq).symm⟩ (by omega)
    have hoffset : stop.offset = here.offset + Text.byteLength m := by
      rw [hqlen, Text.byteLength_append, hplen]
    rw [rest_of_source (hsource.trans hq) hplen.symm hoffset, remaining, hoffset,
      Nat.add_sub_cancel_left]

/-! ## Places -/

namespace Reaches

variable {here stop c d : Cursor}

theorem refl (here stop : Cursor) : here.Reaches stop here :=
  ⟨[], List.nil_prefix, rfl⟩

theorem trans (hc : here.Reaches stop c) (hd : c.Reaches stop d) : here.Reaches stop d := by
  obtain ⟨p, hp, rfl⟩ := hc
  obtain ⟨q, hq, rfl⟩ := hd
  exact ⟨p ++ q, append_prefix hp hq, (advance_byteLength_append here p q).symm⟩

theorem offset_le (h : here.Reaches stop c) : here.offset ≤ c.offset := by
  obtain ⟨p, -, rfl⟩ := h
  exact Nat.le_add_right _ _

/-- A place behind the beginning is not behind the end. -/
theorem offset_le_stop (h : here.Reaches stop c) (hne : c ≠ here) : c.offset ≤ stop.offset := by
  obtain ⟨p, ⟨s, hs⟩, rfl⟩ := h
  have hrest : here.rest stop ≠ [] := by
    intro hnil
    obtain ⟨rfl, -⟩ := List.append_eq_nil_iff.1 (hs.trans hnil)
    exact hne rfl
  obtain ⟨-, -, -, -, hstop⟩ := source_of_rest hrest
  rw [hstop, ← hs, Text.byteLength_append, advance_offset]
  omega

theorem offset_le_max (h : here.Reaches stop c) : c.offset ≤ max here.offset stop.offset := by
  by_cases hne : c = here
  · rw [hne]
    exact Nat.le_max_left _ _
  · exact Nat.le_trans (h.offset_le_stop hne) (Nat.le_max_right _ _)

theorem eq_of_offset_le (h : here.Reaches stop c) (hle : c.offset ≤ here.offset) : c = here := by
  obtain ⟨p, -, rfl⟩ := h
  rw [advance_offset] at hle
  rw [show Text.byteLength p = 0 by omega, advance_zero]

theorem offset_lt (h : here.Reaches stop c) (hne : c ≠ here) : here.offset < c.offset :=
  Nat.lt_of_not_le fun hle => hne (h.eq_of_offset_le hle)

/-- Two places reached one from the other do not come back. -/
theorem antisymm (hc : here.Reaches stop c) (hd : c.Reaches stop here) : c = here :=
  hc.eq_of_offset_le hd.offset_le

theorem eq_of_rest_eq_nil (h : here.Reaches stop c) (hrest : here.rest stop = []) : c = here := by
  obtain ⟨p, hp, rfl⟩ := h
  rw [hrest, List.prefix_nil] at hp
  rw [hp, Text.byteLength_nil, advance_zero]

theorem remaining_le (h : here.Reaches stop c) : c.remaining stop ≤ here.remaining stop := by
  have hle := h.offset_le
  unfold remaining
  omega

/-- Reading uses the window up. -/
theorem remaining_lt (h : here.Reaches stop c) (hne : c ≠ here) :
    c.remaining stop < here.remaining stop := by
  have hlt := h.offset_lt hne
  have hle := h.offset_le_stop hne
  unfold remaining
  omega

theorem onBorder (h : here.Reaches stop c) (hb : here.OnBorder) : c.OnBorder := by
  by_cases hne : c = here
  · rwa [hne]
  obtain ⟨p, hp, rfl⟩ := h
  have hrest : here.rest stop ≠ [] := by
    intro hnil
    rw [hnil, List.prefix_nil] at hp
    rw [hp] at hne
    exact hne rfl
  obtain ⟨q, r, hsrc, hq, -⟩ := source_of_rest hrest
  obtain ⟨s, hs⟩ := hp
  refine ⟨q ++ p, s ++ r, ?_, ?_⟩
  · rw [advance_source, hsrc, ← hs]
    simp only [List.append_assoc]
  · rw [advance_offset, Text.byteLength_append, hq]

/-- The text on the way to a place, and what it says of the place. -/
theorem textTo_spec (h : here.Reaches stop c) :
    here.textTo c <+: here.rest stop ∧ c = here.advance (Text.byteLength (here.textTo c)) := by
  obtain ⟨p, ⟨s, hs⟩, rfl⟩ := h
  rw [textTo_advance hs.symm]
  exact ⟨⟨s, hs⟩, rfl⟩

/-- Behind the text on the way to one place stands the text from there to the next. -/
theorem textTo_append (hc : here.Reaches stop c) (hd : c.Reaches stop d) :
    here.textTo c ++ c.textTo d = here.textTo d := by
  obtain ⟨p, hp, rfl⟩ := hc
  obtain ⟨q, hq, rfl⟩ := hd
  have hpq := append_prefix hp hq
  rw [← advance_byteLength_append]
  obtain ⟨s, hs⟩ := hp
  obtain ⟨t, ht⟩ := hpq
  obtain ⟨u, hu⟩ := hq
  rw [textTo_advance ht.symm, textTo_advance hs.symm, advance_byteLength_append,
    textTo_advance hu.symm]

end Reaches

/-! ## Windows that show the same -/

/-- The two windows show one text, and both or neither have come to their ends. -/
structure ShowsSame (here₁ stop₁ here₂ stop₂ : Cursor) : Prop where
  rest : here₁.rest stop₁ = here₂.rest stop₂
  atEnd : here₁.atEnd stop₁ = here₂.atEnd stop₂

/-- The same part of what both windows show is read in both. -/
def InStep (stop here₁ here₂ c₁ c₂ : Cursor) : Prop :=
  ∃ p, p <+: here₁.rest stop ∧ c₁ = here₁.advance (Text.byteLength p) ∧
    c₂ = here₂.advance (Text.byteLength p)

theorem atEnd_advance_of_rest {here stop : Cursor} (h : here.rest stop ≠ []) (n : Nat) :
    (here.advance n).atEnd stop = decide (Text.byteLength (here.rest stop) ≤ n) := by
  obtain ⟨-, -, -, -, hstop⟩ := source_of_rest h
  unfold atEnd
  rw [hstop, advance_offset]
  exact decide_eq_decide.2 (by omega)

namespace ShowsSame

variable {here₁ stop₁ here₂ stop₂ c₁ c₂ : Cursor}

theorem refl (here stop : Cursor) : ShowsSame here stop here stop := ⟨rfl, rfl⟩

theorem advance (h : ShowsSame here₁ stop₁ here₂ stop₂) {p : List Char}
    (hp : p <+: here₁.rest stop₁) :
    ShowsSame (here₁.advance (Text.byteLength p)) stop₁ (here₂.advance (Text.byteLength p)) stop₂ := by
  by_cases hnil : here₁.rest stop₁ = []
  · rw [hnil, List.prefix_nil] at hp
    rwa [hp]
  obtain ⟨s, hs⟩ := hp
  refine ⟨?_, ?_⟩
  · rw [rest_advance hs.symm, rest_advance (h.rest ▸ hs.symm)]
  · rw [atEnd_advance_of_rest hnil, atEnd_advance_of_rest (h.rest ▸ hnil), h.rest]

theorem inStep (h : ShowsSame here₁ stop₁ here₂ stop₂) (hc : InStep stop₁ here₁ here₂ c₁ c₂) :
    ShowsSame c₁ stop₁ c₂ stop₂ := by
  obtain ⟨p, hp, rfl, rfl⟩ := hc
  exact h.advance hp

end ShowsSame

namespace InStep

variable {stop here₁ here₂ c₁ c₂ d₁ d₂ : Cursor}

theorem refl (stop here₁ here₂ : Cursor) : InStep stop here₁ here₂ here₁ here₂ :=
  ⟨[], List.nil_prefix, rfl, rfl⟩

theorem trans (hc : InStep stop here₁ here₂ c₁ c₂) (hd : InStep stop c₁ c₂ d₁ d₂) :
    InStep stop here₁ here₂ d₁ d₂ := by
  obtain ⟨p, hp, rfl, rfl⟩ := hc
  obtain ⟨q, hq, rfl, rfl⟩ := hd
  exact ⟨p ++ q, append_prefix hp hq, (advance_byteLength_append here₁ p q).symm,
    (advance_byteLength_append here₂ p q).symm⟩

/-- What one of two windows is moved by, the other is moved by. -/
theorem offset_lt_iff (hc : InStep stop here₁ here₂ c₁ c₂) (hd : InStep stop here₁ here₂ d₁ d₂) :
    c₁.offset < d₁.offset ↔ c₂.offset < d₂.offset := by
  obtain ⟨p, -, rfl, rfl⟩ := hc
  obtain ⟨q, -, rfl, rfl⟩ := hd
  simp only [advance_offset, Nat.add_lt_add_iff_left]

theorem offset_eq_iff (hc : InStep stop here₁ here₂ c₁ c₂) :
    c₁.offset = here₁.offset ↔ c₂.offset = here₂.offset := by
  obtain ⟨p, -, rfl, rfl⟩ := hc
  simp only [advance_offset, Nat.add_eq_left]

end InStep

theorem reaches_of_inStep {stop here c d : Cursor} (h : InStep stop here here c d) :
    here.Reaches stop c := by
  obtain ⟨p, hp, rfl, -⟩ := h
  exact ⟨p, hp, rfl⟩

end PegParsing.Cursor
