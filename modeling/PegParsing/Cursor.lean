import PegParsing.Text.Utf8

/-!
# Cursors

A cursor marks a byte offset in a text. Two cursors `here` and `stop` into one text bound a
window, and all that can be read through it is `here.rest stop`. A window that is reversed, that
begins or ends inside a character, or that reaches beyond the text shows nothing.

Cursors compare by their offsets alone. Reading moves forward over whole characters:
`rest_advance` says what a window shows behind a part of it, and `textTo_advance` that what was read is
what the window showed.
-/

namespace PegParsing

structure Cursor where
  source : List Char
  offset : Nat
  deriving DecidableEq, Repr

namespace Cursor

/-- The start of a text. -/
def start (source : List Char) : Cursor := ⟨source, 0⟩

/-- The end of a text. -/
def finish (source : List Char) : Cursor := ⟨source, Text.byteLength source⟩

/-- Nothing is left before `stop`. -/
def atEnd (here stop : Cursor) : Bool := stop.offset ≤ here.offset

/-- The number of bytes left before `stop`. -/
def remaining (here stop : Cursor) : Nat := stop.offset - here.offset

/-- The text from one cursor to another. -/
def textTo (here stop : Cursor) : List Char :=
  if stop.offset ≤ here.offset then []
  else (Text.slice? here.source here.offset stop.offset).getD []

/-- What a window shows. -/
def rest (here stop : Cursor) : List Char := here.textTo stop

/-- The next character. -/
def peek (here stop : Cursor) : Option Char := (here.rest stop).head?

/-- Moves forward by `n` bytes, whatever they are. -/
def advance (here : Cursor) (n : Nat) : Cursor := { here with offset := here.offset + n }

/-- The next character and the cursor behind it. -/
def next? (here stop : Cursor) : Option (Char × Cursor) :=
  (here.peek stop).map fun c => (c, here.advance c.utf8Size)

/-- Moves forward by `n` characters, or to the end of the window if it shows fewer. -/
def take (here stop : Cursor) (n : Nat) : Cursor :=
  here.advance (Text.byteLength ((here.rest stop).take n))

/-- How two cursors lie to each other. -/
def order (a b : Cursor) : Ordering := compare a.offset b.offset

/-- A cursor as it is shown in messages. -/
def describe (here : Cursor) : String := s!"Cursor({here.offset})"

@[simp] theorem advance_source (here : Cursor) (n : Nat) :
    (here.advance n).source = here.source := rfl

@[simp] theorem advance_offset (here : Cursor) (n : Nat) :
    (here.advance n).offset = here.offset + n := rfl

@[simp] theorem advance_zero (here : Cursor) : here.advance 0 = here := rfl

@[simp] theorem advance_advance (here : Cursor) (m n : Nat) :
    (here.advance m).advance n = here.advance (m + n) := by
  simp [advance, Nat.add_assoc]

/-! ## What a window shows -/

theorem rest_of_atEnd {here stop : Cursor} (h : here.atEnd stop) : here.rest stop = [] := by
  simp_all [atEnd, rest, textTo]

/-- A window that shows something shows all of its bytes. -/
theorem byteLength_rest {here stop : Cursor} (h : here.rest stop ≠ []) :
    Text.byteLength (here.rest stop) = here.remaining stop := by
  unfold rest textTo Text.slice? at *
  split at h
  · exact absurd rfl h
  · rename_i hlt
    rw [if_neg hlt]
    cases hd : Text.dropBytes? here.offset here.source with
    | none => simp [hd] at h
    | some cs =>
      cases ht : Text.takeBytes? (stop.offset - here.offset) cs with
      | none => simp [hd, ht] at h
      | some p => simpa [hd, ht, remaining] using Text.byteLength_of_takeBytes? ht

/-- A window that shows something cuts its text in three. -/
theorem source_of_rest {here stop : Cursor} (h : here.rest stop ≠ []) :
    ∃ p r, here.source = p ++ here.rest stop ++ r ∧ Text.byteLength p = here.offset ∧
      stop.offset = here.offset + Text.byteLength (here.rest stop) := by
  have hlen := byteLength_rest h
  unfold rest textTo remaining at *
  split at h
  · exact absurd rfl h
  · rename_i hlt
    rw [if_neg hlt] at hlen ⊢
    cases hs : Text.slice? here.source here.offset stop.offset with
    | none => simp [hs] at h
    | some m =>
      obtain ⟨p, r, hcs, hp, hm⟩ := Text.slice?_eq_some hs
      exact ⟨p, r, by simpa using hcs, hp, by simp only [Option.getD_some]; omega⟩

/-- What stands between two cursors is what a window shows. -/
theorem rest_of_source {here stop : Cursor} {p m s : List Char} (hsource : here.source = p ++ m ++ s)
    (hp : Text.byteLength p = here.offset)
    (hstop : stop.offset = here.offset + Text.byteLength m) : here.rest stop = m := by
  unfold rest textTo
  split
  · have hm : Text.byteLength m = 0 := by omega
    exact (Text.byteLength_eq_zero.1 hm).symm
  · rw [hsource, hstop, ← hp, Text.slice?_append]
    rfl

/-- Behind a part of what a window shows, it shows the other part. -/
theorem rest_advance {here stop : Cursor} {p s : List Char} (h : here.rest stop = p ++ s) :
    (here.advance (Text.byteLength p)).rest stop = s := by
  by_cases hp : p = []
  · simpa [hp] using h
  have hne : here.rest stop ≠ [] := by simp [h, hp]
  obtain ⟨q, r, hsrc, hq, hstop⟩ := source_of_rest hne
  rw [h, Text.byteLength_append] at hstop
  rw [h, ← List.append_assoc] at hsrc
  refine rest_of_source (p := q ++ p) (s := r) hsrc ?_ ?_
  · rw [Text.byteLength_append, hq, advance_offset]
  · rw [hstop, advance_offset, Nat.add_assoc]

/-- What is read from a window is what was shown. -/
theorem textTo_advance {here stop : Cursor} {p s : List Char} (h : here.rest stop = p ++ s) :
    here.textTo (here.advance (Text.byteLength p)) = p := by
  by_cases hp : p = []
  · simp [hp, textTo]
  have hne : here.rest stop ≠ [] := by simp [h, hp]
  obtain ⟨q, r, hsrc, hq, _⟩ := source_of_rest hne
  rw [h, ← List.append_assoc, List.append_assoc] at hsrc
  exact rest_of_source hsrc hq rfl

end Cursor

end PegParsing
