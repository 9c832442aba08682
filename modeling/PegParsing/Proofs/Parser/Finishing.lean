import PegParsing.Proofs.Parser.Locality
import PegParsing.Proofs.Parser.Success

/-!
# Parsers that come to an end

`Finishes` says of a parser that its run from a given place is not cut short. A combinator finishes
if its parts do wherever it runs them; a repetition does by `Repetition.exists_run`, since no round
leaves both the window and the missing items as they were. What grammars are built from finishes
everywhere (`Terminal.finishes`).
-/

namespace PegParsing

open Cursor

variable {α β σ : Type} {here stop : Cursor}

namespace Parser

/-- The parser comes to an end, with a success or a failure. -/
def Finishes (p : Parser α) (here stop : Cursor) : Prop := (p here stop).isSome

theorem finishes_of_eq_some {p : Parser α} {r : Parsed α} (h : p here stop = some r) :
    p.Finishes here stop := by
  unfold Finishes
  rw [h]
  rfl

theorem Finishes.exists {p : Parser α} (h : p.Finishes here stop) : ∃ r, p here stop = some r :=
  Option.isSome_iff_exists.1 h

theorem finishes_succeed (v : α) : (succeed v).Finishes here stop := rfl

theorem finishes_failAt (code : ErrorCode) : (failAt code : Parser α).Finishes here stop := rfl

theorem finishes_empty : empty.Finishes here stop := rfl

/-! ## Combinators -/

theorem Finishes.bind {p : Parser α} {f : α → Parser β} (hp : p.Finishes here stop)
    (hf : ∀ d v, p here stop = some (.success d v) → (f v).Finishes d stop) :
    (p.bind f).Finishes here stop := by
  obtain ⟨⟨d, code | v⟩, h⟩ := hp.exists
  · exact finishes_of_eq_some (bind_of_failure h f)
  · obtain ⟨r, hr⟩ := (hf d v h).exists
    exact finishes_of_eq_some ((bind_of_success h f).trans hr)

theorem Finishes.map {p : Parser α} (hp : p.Finishes here stop) (f : α → β) :
    (p.map f).Finishes here stop := Option.isSome_map.trans hp

theorem Finishes.skip {p : Parser α} (hp : p.Finishes here stop) : p.skip.Finishes here stop :=
  hp.map _

theorem Finishes.apply {p : Parser α} (hp : p.Finishes here stop) (f : α → Except ErrorCode β) :
    (p.apply f).Finishes here stop := Option.isSome_map.trans hp

theorem Finishes.check {p : Parser α} (hp : p.Finishes here stop) (accepts : α → Bool) :
    (p.check accepts).Finishes here stop := hp.apply _

theorem Finishes.opt {p : Parser α} (hp : p.Finishes here stop) : p.opt.Finishes here stop :=
  Option.isSome_map.trans hp

theorem Finishes.raw {p : Parser α} (hp : p.Finishes here stop) : p.raw.Finishes here stop :=
  Option.isSome_map.trans hp

/-- A parser that is not enabled need not finish. -/
theorem finishes_enabled {on : Bool} {p : Parser α} (hp : on = true → p.Finishes here stop) :
    (enabled on p).Finishes here stop := by
  cases on with
  | false => exact finishes_failAt _
  | true => exact hp rfl

theorem Finishes.onlyWhere {must : Parser β} {p : Parser α} (hm : must.Finishes here stop)
    (hp : p.Finishes here stop) : (onlyWhere must p).Finishes here stop := by
  obtain ⟨⟨d, code | v⟩, h⟩ := hm.exists
  · unfold Finishes Parser.onlyWhere
    rw [h]
    rfl
  · unfold Finishes Parser.onlyWhere
    rw [h]
    exact hp

theorem Finishes.exceptWhere {non : Parser β} {p : Parser α} (hn : non.Finishes here stop)
    (hp : p.Finishes here stop) : (exceptWhere non p).Finishes here stop := by
  obtain ⟨⟨d, code | v⟩, h⟩ := hn.exists
  · unfold Finishes Parser.exceptWhere
    rw [h]
    exact hp
  · unfold Finishes Parser.exceptWhere
    rw [h]
    rfl

theorem Finishes.orElse {p q : Parser α} (hp : p.Finishes here stop) (hq : q.Finishes here stop) :
    (orElse p q).Finishes here stop := by
  obtain ⟨⟨d, code | v⟩, h⟩ := hp.exists
  · unfold Finishes Parser.orElse
    rw [h]
    exact Option.isSome_map.trans hq
  · unfold Finishes Parser.orElse
    rw [h]
    rfl

theorem finishes_choice {ps : List (Parser α)} (h : ∀ p ∈ ps, p.Finishes here stop) :
    (choice ps).Finishes here stop := by
  induction ps with
  | nil => exact finishes_failAt _
  | cons p ps ih =>
    obtain ⟨hp, hps⟩ := List.forall_mem_cons.1 h
    by_cases hnil : ps = []
    · rw [hnil]
      exact hp
    · rw [choice_cons p hnil]
      exact hp.orElse (ih hps)

theorem finishes_taggedChoice {ps : List (Parser α)} {tag : Nat → α → β}
    (h : ∀ p ∈ ps, p.Finishes here stop) : (taggedChoice tag ps).Finishes here stop := by
  refine finishes_choice fun q hq => ?_
  obtain ⟨⟨p, i⟩, hp, rfl⟩ := List.mem_map.1 hq
  exact (h p (List.fst_mem_of_mem_zipIdx hp)).map _

/-- Skips that finish wherever they are run. -/
theorem finishes_skips {ps : List (Parser Unit)} (h : ∀ p ∈ ps, ∀ c, p.Finishes c stop) :
    (skips ps).Finishes here stop := by
  have htail : ∀ qs : List (Parser Unit), (∀ p ∈ qs, ∀ c, p.Finishes c stop) →
      ∀ c, (sequenceTail empty (qs.map (Part.mk .skip))).Finishes c stop := by
    intro qs hqs
    induction qs with
    | nil => exact fun c => finishes_succeed _
    | cons p qs ih =>
      obtain ⟨hp, hqs⟩ := List.forall_mem_cons.1 hqs
      intro c
      exact finishes_empty.bind fun d _ _ => (hp d).bind fun e _ _ => (ih hqs e).map _
  cases ps with
  | nil => exact finishes_succeed _
  | cons p ps =>
    obtain ⟨hp, hps⟩ := List.forall_mem_cons.1 h
    exact Finishes.skip ((hp here).bind fun e _ _ => (htail ps hps e).map _)

/-- A repetition finishes where it has a run. -/
theorem finishes_collect {r : Repetition α} {into : Container α σ} (hr : r.Agrees r)
    (h : ∃ vs last, Repetition.Run r stop 0 here vs last) : (r.collect into).Finishes here stop := by
  obtain ⟨vs, last, hrun⟩ := h
  exact finishes_of_eq_some
    ((Repetition.collect_eq_some_iff (hr.forward stop)).2 ⟨vs, last, hrun, rfl⟩)

/-- A repetition of an item that finishes everywhere. -/
theorem finishes_times {b : Bounds} {p : Parser α} {into : Container α σ} (hp : p.Agrees p)
    (h : ∀ c, p.Finishes c stop) : ((times b p).collect into).Finishes here stop := by
  have hr : (times b p).Agrees (times b p) := ⟨rfl, agrees_empty, hp⟩
  have hround : ∀ count c, ((times b p).round count).Finishes c stop := by
    intro count c
    have hsep : ((times b p).separatorAt count).Finishes c stop := by
      unfold Repetition.separatorAt
      split <;> exact finishes_empty
    exact hsep.bind fun d _ _ => h d
  exact finishes_collect hr (Repetition.exists_run (hr.forward stop).advances (I := fun _ _ => True)
    (fun count c _ _ => hround count c) (fun _ _ _ _ _ _ _ _ => trivial) trivial)

/-! ## Characters, texts and white space -/

theorem finishes_charIf (accepts : Char → Bool) : (charIf accepts).Finishes here stop := by
  unfold Finishes charIf
  split
  · rfl
  · split <;> rfl

theorem finishes_char (c : Char) : (char c).Finishes here stop := (finishes_charIf _).skip

theorem finishes_eof : eof.Finishes here stop := by
  unfold Finishes eof
  split <;> rfl

theorem finishes_eol : eol.Finishes here stop := by
  unfold Finishes eol
  split
  · rfl
  · split
    · rfl
    · split <;> rfl

theorem finishes_literal (case : LetterCase) (text : List Char) :
    (literal case text).Finishes here stop := by
  obtain ⟨w, s, -, -, hread⟩ | ⟨-, hmissing⟩ := literal_cases case text here stop
  · exact finishes_of_eq_some hread
  · exact finishes_of_eq_some hmissing

theorem finishes_textSpace : textSpace.Finishes here stop :=
  finishes_times (agrees_charIf _) fun _ => finishes_charIf _

theorem finishes_spacedChar (c : Char) : (spacedChar c).Finishes here stop := by
  refine finishes_textSpace.bind fun d _ _ => ?_
  split
  · exact finishes_empty
  · exact (finishes_char c).bind fun _ _ _ => finishes_textSpace

end Parser

open PegParsing.Parser

/-! ## Symbols and numbers -/

theorem SymbolTable.finishes (t : SymbolTable α) : Parser.Finishes t.parser here stop := by
  unfold Parser.Finishes SymbolTable.parser
  split <;> rfl

theorem SignPolicy.finishes (s : SignPolicy) : s.parser.Finishes here stop := by
  cases s with
  | never => exact finishes_empty
  | minus => exact finishes_choice (by simp [finishes_char, finishes_empty])
  | allowed => exact finishes_choice (by simp [finishes_char, finishes_empty])
  | required => exact finishes_choice (by simp [finishes_char])

theorem IntFormat.finishes (f : IntFormat) : f.parser.Finishes here stop := by
  have hdigits : ∀ c, (times f.digits (charIf f.radix.isDigit)).skip.Finishes c stop :=
    fun c => finishes_times (agrees_charIf _) fun _ => finishes_charIf _
  exact Finishes.apply (Finishes.raw (finishes_skips (by simp [f.sign.finishes, hdigits]))) f.read

namespace RealFormat

theorem finishes_digitRun (b : Bounds) : (digitRun b).Finishes here stop :=
  finishes_times (agrees_charIf _) fun _ => finishes_charIf _

theorem finishes_fraction (f : RealFormat) : f.fraction.Finishes here stop :=
  finishes_skips (by simp [finishes_char, finishes_digitRun])

theorem finishes_exponentPart : exponentPart.Finishes here stop := by
  have hletter : ∀ c, (choice [char 'e', char 'E']).Finishes c stop :=
    fun c => finishes_choice (by simp [finishes_char])
  exact finishes_skips (by simp [hletter, SignPolicy.finishes, finishes_digitRun])

theorem finishes_numeral (f : RealFormat) : f.numeral.Finishes here stop := by
  refine finishes_skips ?_
  simp only [List.forall_mem_cons, List.not_mem_nil, false_implies, implies_true, and_true]
  refine ⟨fun c => f.sign.finishes, fun c => finishes_digitRun _, fun c => finishes_choice ?_,
    fun c => finishes_choice ?_⟩
  · simp [f.finishes_fraction, finishes_enabled, finishes_empty]
  · simp [finishes_exponentPart, finishes_enabled, finishes_empty]

theorem finishes_lonePoint (f : RealFormat) : f.lonePoint.Finishes here stop := by
  have hdigit : ∀ c, (reject digit).Finishes c stop :=
    fun c => (finishes_charIf _).exceptWhere finishes_empty
  exact finishes_skips (by simp [f.sign.finishes, finishes_char, hdigit])

theorem finishes_number (f : RealFormat) : f.number.Finishes here stop :=
  Option.isSome_map.trans (f.finishes_lonePoint.exceptWhere f.finishes_numeral.raw)

theorem finishes (f : RealFormat) : f.parser.Finishes here stop :=
  finishes_choice (by simp [f.finishes_number, finishes_enabled, symbolTable.finishes])

end RealFormat

theorem Terminal.finishes (t : Terminal) : t.parser.Finishes here stop := by
  cases t with
  | empty => exact finishes_empty.map _
  | literal case text => exact (finishes_literal case _).map _
  | char c => exact (finishes_char c).map _
  | charIf accepts => exact (finishes_charIf accepts).map _
  | eof => exact finishes_eof.map _
  | eol => exact finishes_eol.map _
  | fail kind => exact finishes_failAt _
  | spacedChar c => exact (finishes_spacedChar c).map _
  | sign policy => exact policy.finishes.map _
  | integer format => exact format.finishes.map _
  | real format => exact format.finishes.map _
  | symbols table => exact table.finishes

end PegParsing
