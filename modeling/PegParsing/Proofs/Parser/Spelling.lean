import PegParsing.Proofs.Parser.Munching

/-!
# Fixed texts, character by character

A fixed text is compared as bytes. Reading its characters one after the other is another way to read
it, which never looks at a byte, and the two read the same (`Parser.literal_spells`): both read
characters that are those of the text but for case, and nothing else (`munches_literal`,
`munches_spelled`).
-/

namespace PegParsing

open Cursor

namespace Parser

variable {p q : Parser Unit} {T : List Char → List Char → Prop} {here stop c : Cursor}

/-- One character of a fixed text: the character itself, or any that differs from it in the case of
an ASCII letter alone. -/
def charOf : LetterCase → Char → Parser Unit
  | .exact, c => char c
  | .ignored, c => (charIf fun d => d.toLower == c.toLower).skip

/-- The characters of a fixed text one after the other. -/
def spelled (case : LetterCase) (text : List Char) : Parser Unit := skips (text.map (charOf case))

theorem charOf_eq (case : LetterCase) (c : Char) :
    charOf case c = (charIf fun d => case.foldChar d == case.foldChar c).skip := by
  cases case <;> rfl

theorem munches_charOf (case : LetterCase) (c : Char) :
    (charOf case c).Munches fun w _ => ∃ d, w = [d] ∧ case.foldChar d = case.foldChar c := by
  rw [charOf_eq]
  refine (munches_charIf _).congr fun w _ => ?_
  simp only [beq_iff_eq]

theorem munches_spelled (case : LetterCase) (text : List Char) :
    (spelled case text).Munches fun w _ => w.map case.foldChar = text.map case.foldChar := by
  induction text with
  | nil => exact munches_skips_nil.congr fun w _ => List.map_eq_nil_iff.symm
  | cons c text ih =>
    refine ((munches_charOf case c).skips ih).congr fun w s => ?_
    rw [List.map_cons, List.map_eq_cons_iff]
    constructor
    · rintro ⟨_, v, rfl, ⟨d, rfl, hd⟩, hv⟩
      exact ⟨d, v, rfl, hd, hv⟩
    · rintro ⟨d, v, rfl, hd, hv⟩
      exact ⟨[d], v, rfl, ⟨d, rfl, hd⟩, hv⟩

theorem agrees_spelled (case : LetterCase) (text : List Char) :
    (spelled case text).Agrees (spelled case text) := by
  refine agrees_skips fun p hp => ?_
  obtain ⟨c, -, rfl⟩ := List.mem_map.1 hp
  rw [charOf_eq]
  exact (agrees_charIf _).skip

theorem munches_literal (case : LetterCase) (text : List Char) :
    (literal case text).Munches fun w _ => w.map case.foldChar = text.map case.foldChar where
  accepts hw := fun _ _ hrest => ⟨_, literal_of_shown hrest hw, rest_advance hrest⟩
  rejects hno := fun _ _ hrest => ⟨_, _, literal_of_not_shown fun w s hcs => hno w s (hrest ▸ hcs)⟩

/-- Two fixed texts one behind the other read what the text of both reads. -/
theorem munches_literal_append (case : LetterCase) (before behind : List Char) :
    (skips [literal case before, literal case behind]).Munches
      fun w _ => w.map case.foldChar = (before ++ behind).map case.foldChar := by
  refine ((munches_literal case before).skips
    (munches_literal case behind).skips_singleton).congr fun w s => ?_
  rw [List.map_append, List.map_eq_append_iff]

theorem agrees_literals {case : LetterCase} {texts : List (List Char)} :
    (skips (texts.map (literal case))).Agrees (skips (texts.map (literal case))) := by
  refine agrees_skips fun p hp => ?_
  obtain ⟨text, -, rfl⟩ := List.mem_map.1 hp
  exact agrees_literal case text

/-- Skips that read the same succeed together, and at one place. -/
theorem Munches.success_iff (hp : p.Munches T) (hq : q.Munches T) (hpp : p.Agrees p)
    (hqq : q.Agrees q) : p here stop = some (.success c ()) ↔ q here stop = some (.success c ()) := by
  rw [hp.eq_success_iff hpp, hq.eq_success_iff hqq]

/-- A fixed text is read where its characters are read one after the other, and where two parts of it
are, and ends at the same place. Where it is not read, it fails at its beginning: for want of bytes if
the window shows fewer than it has, and else because they are others. A window between two borders of
characters shows as many bytes as are left in it. -/
theorem literal_spells (case : LetterCase) (text : List Char) (here stop : Cursor) :
    (∀ c, literal case text here stop = some (.success c ()) ↔
      spelled case text here stop = some (.success c ())) ∧
    (∀ before behind, text = before ++ behind → ∀ c,
      literal case text here stop = some (.success c ()) ↔
        skips [literal case before, literal case behind] here stop = some (.success c ())) ∧
    ((∃ c, literal case text here stop = some (.success c ())) ∨
      literal case text here stop = some (.failure here
        (if Text.byteLength (here.rest stop) < Text.byteLength text then .unexpectedEof
          else .expectedString))) ∧
    (here.source = stop.source → here.OnBorder → stop.OnBorder →
      Text.byteLength (here.rest stop) = here.remaining stop) := by
  refine ⟨fun c => ?_, ?_, ?_, fun hsource hhere hstop => hhere.byteLength_rest hstop hsource⟩
  · exact (munches_literal case text).success_iff (munches_spelled case text)
      (agrees_literal case text) (agrees_spelled case text)
  · rintro before behind rfl c
    exact (munches_literal case (before ++ behind)).success_iff
      (munches_literal_append case before behind) (agrees_literal case _)
      (@agrees_literals case [before, behind])
  · obtain ⟨w, s, -, -, hread⟩ | ⟨-, hmissing⟩ := literal_cases case text here stop
    · exact .inl ⟨_, hread⟩
    · exact .inr hmissing

end Parser

end PegParsing
