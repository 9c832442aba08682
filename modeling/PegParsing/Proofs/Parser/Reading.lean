import PegParsing.Parser.Whitespace
import PegParsing.Proofs.Parser.Locality
import PegParsing.Proofs.Parser.Success

/-!
# What a parser reads

`Reads p Q` says that `Q w v` holds of the text `w` that `p` has read whenever it succeeds, and of its
value `v`. It is known of a combinator as soon as it is known of its parts. A repetition reads a
`Separated` row: the texts of its items, with the text of a separator before each but the first.
-/

namespace PegParsing

open Cursor

variable {α β σ : Type}

/-! ## Texts -/

/-- White space alone. -/
def Spaces (w : List Char) : Prop := ∀ c ∈ w, Predicate.isSpace c = true

/-- The character `c` with white space on both sides. -/
def Padded (c : Char) (w : List Char) : Prop := ∃ a b, Spaces a ∧ Spaces b ∧ w = a ++ c :: b

/-- The texts `ws`, with a separator before each. -/
inductive Following (sep : List Char → Prop) : List (List Char) → List Char → Prop
  | nil : Following sep [] []
  | cons {s w t : List Char} {ws : List (List Char)} : sep s → Following sep ws t →
      Following sep (w :: ws) (s ++ (w ++ t))

/-- The texts `ws`, with a separator before each but the first. -/
def Separated (sep : List Char → Prop) : List (List Char) → List Char → Prop
  | [], t => t = []
  | w :: ws, t => ∃ u, Following sep ws u ∧ t = w ++ u

namespace Parser

/-- What is read in a success, and with which value. -/
def Reads (p : Parser α) (Q : List Char → α → Prop) : Prop :=
  ∀ ⦃here stop c v⦄, p here stop = some (.success c v) →
    ∃ w, w <+: here.rest stop ∧ c = here.advance (Text.byteLength w) ∧ Q w v

variable {p : Parser α} {P Q : List Char → α → Prop}

theorem Reads.mono (h : p.Reads P) (hle : ∀ w v, P w v → Q w v) : p.Reads Q := by
  intro here stop c v hv
  obtain ⟨w, hw, hc, hP⟩ := h hv
  exact ⟨w, hw, hc, hle w v hP⟩

/-! ## Combinators -/

theorem reads_succeed (u : α) : (succeed u).Reads fun w v => w = [] ∧ v = u := by
  intro here stop c v h
  obtain ⟨rfl, rfl⟩ := succeed_eq_success.1 h
  exact ⟨[], List.nil_prefix, rfl, rfl, rfl⟩

theorem Reads.bind {f : α → Parser β} {R : α → List Char → β → Prop} (hp : p.Reads P)
    (hf : ∀ u, (f u).Reads (R u)) :
    (p.bind f).Reads fun w v => ∃ w₁ u w₂, P w₁ u ∧ R u w₂ v ∧ w = w₁ ++ w₂ := by
  intro here stop c v h
  obtain ⟨d, u, hd, hv⟩ := bind_eq_success.1 h
  obtain ⟨w₁, hw₁, rfl, hP⟩ := hp hd
  obtain ⟨w₂, hw₂, rfl, hR⟩ := hf u hv
  exact ⟨w₁ ++ w₂, append_prefix hw₁ hw₂, (advance_byteLength_append here w₁ w₂).symm,
    w₁, u, w₂, hP, hR, rfl⟩

theorem Reads.map (hp : p.Reads P) (f : α → β) :
    (p.map f).Reads fun w v => ∃ u, P w u ∧ v = f u := by
  intro here stop c v h
  obtain ⟨u, hu, rfl⟩ := map_eq_success.1 h
  obtain ⟨w, hw, hc, hP⟩ := hp hu
  exact ⟨w, hw, hc, u, hP, rfl⟩

theorem Reads.skip (hp : p.Reads P) : p.skip.Reads fun w _ => ∃ u, P w u := by
  refine (hp.map _).mono ?_
  rintro w v ⟨u, hP, -⟩
  exact ⟨u, hP⟩

theorem reads_choice {ps : List (Parser α)} (h : ∀ p ∈ ps, p.Reads Q) : (choice ps).Reads Q := by
  intro here stop c v hv
  obtain ⟨p, hmem, hp⟩ := exists_of_choice hv
  exact h p hmem hp

/-! ## Characters and texts -/

theorem reads_charIf (accepts : Char → Bool) :
    (charIf accepts).Reads fun w v => w = [v] ∧ accepts v = true := by
  intro here stop c v h
  obtain ⟨⟨cs, hcs⟩, hv, rfl⟩ := charIf_eq_success.1 h
  exact ⟨[v], ⟨cs, hcs.symm⟩, rfl, rfl, hv⟩

theorem reads_char (c : Char) : (char c).Reads fun w _ => w = [c] := by
  refine (reads_charIf _).skip.mono ?_
  rintro w - ⟨v, rfl, hv⟩
  rw [eq_of_beq hv]

theorem reads_literal (text : List Char) : (literal .exact text).Reads fun w _ => w = text := by
  intro here stop c v h
  obtain ⟨w, s, hrest, hw, rfl⟩ := literal_eq_success_iff.1 h
  rw [LetterCase.map_foldChar_exact, LetterCase.map_foldChar_exact] at hw
  exact ⟨w, ⟨s, hrest.symm⟩, rfl, hw⟩

end Parser

/-! ## Repetitions -/

namespace Repetition

open PegParsing.Parser

variable {r : Repetition α} {S : List Char → Prop} {Q : List Char → α → Prop} {stop here last : Cursor}
  {count : Nat} {vs : List α}

theorem reads_round (hsep : r.separator.Reads fun w _ => S w) (hitem : r.item.Reads Q)
    (hcount : count ≠ 0) :
    (r.round count).Reads fun w v => ∃ s t, S s ∧ Q t v ∧ w = s ++ t := by
  unfold round separatorAt
  rw [if_neg hcount]
  refine (hsep.bind fun _ => hitem).mono ?_
  rintro w v ⟨s, -, t, hs, ht, rfl⟩
  exact ⟨s, t, hs, ht, rfl⟩

/-- What a run reads that has accepted items already. -/
theorem Run.exists_following (hsep : r.separator.Reads fun w _ => S w) (hitem : r.item.Reads Q)
    (h : Run r stop count here vs last) (hcount : count ≠ 0) :
    ∃ (es : List (List Char × α)) (w : List Char), w <+: here.rest stop ∧
      last = here.advance (Text.byteLength w) ∧ Following S (es.map Prod.fst) w ∧
      (∀ e ∈ es, Q e.1 e.2) ∧ vs = es.map Prod.snd := by
  induction h with
  | full hfull => exact ⟨[], [], List.nil_prefix, rfl, .nil, List.forall_mem_nil _, rfl⟩
  | failed hfull hround => exact ⟨[], [], List.nil_prefix, rfl, .nil, List.forall_mem_nil _, rfl⟩
  | @stalled count here v last hfull hround hst =>
    obtain ⟨_, hw, hlast, s, t, hs, ht, rfl⟩ := reads_round hsep hitem hcount hround
    refine ⟨[(t, v)], s ++ (t ++ []), ?_, ?_, .cons hs .nil, List.forall_mem_singleton.2 ht, rfl⟩
    · rwa [List.append_nil]
    · rwa [List.append_nil]
  | @next count here v mid vs last hfull hround hst hrun ih =>
    obtain ⟨_, hw, rfl, s, t, hs, ht, rfl⟩ := reads_round hsep hitem hcount hround
    obtain ⟨es, u, hu, rfl, hfollow, hall, rfl⟩ := ih (Nat.succ_ne_zero count)
    refine ⟨(t, v) :: es, s ++ (t ++ u), ?_, ?_, .cons hs hfollow, List.forall_mem_cons.2 ⟨ht, hall⟩,
      rfl⟩
    · rw [← List.append_assoc]
      exact append_prefix hw hu
    · rw [← List.append_assoc]
      exact (advance_byteLength_append here (s ++ t) u).symm

/-- What a run reads from its beginning. -/
theorem Run.exists_separated (hsep : r.separator.Reads fun w _ => S w) (hitem : r.item.Reads Q)
    (h : Run r stop 0 here vs last) :
    ∃ (es : List (List Char × α)) (w : List Char), w <+: here.rest stop ∧
      last = here.advance (Text.byteLength w) ∧ Separated S (es.map Prod.fst) w ∧
      (∀ e ∈ es, Q e.1 e.2) ∧ vs = es.map Prod.snd := by
  cases h with
  | full hfull => exact ⟨[], [], List.nil_prefix, rfl, rfl, List.forall_mem_nil _, rfl⟩
  | failed hfull hround => exact ⟨[], [], List.nil_prefix, rfl, rfl, List.forall_mem_nil _, rfl⟩
  | @stalled _ _ v _ hfull hround hst =>
    obtain ⟨t, ht, hlast, hQ⟩ := hitem hround
    exact ⟨[(t, v)], t, ht, hlast, ⟨[], .nil, (List.append_nil t).symm⟩, List.forall_mem_singleton.2 hQ,
      rfl⟩
  | @next _ _ v mid vs _ hfull hround hst hrun =>
    obtain ⟨t, ht, rfl, hQ⟩ := hitem hround
    obtain ⟨es, u, hu, rfl, hfollow, hall, rfl⟩ := hrun.exists_following hsep hitem Nat.one_ne_zero
    exact ⟨(t, v) :: es, t ++ u, append_prefix ht hu, (advance_byteLength_append here t u).symm,
      ⟨u, hfollow, rfl⟩, List.forall_mem_cons.2 ⟨hQ, hall⟩, rfl⟩

theorem reads_collect (hr : r.Agrees r) {into : Container α σ}
    (hsep : r.separator.Reads fun w _ => S w) (hitem : r.item.Reads Q) :
    (r.collect into).Reads fun w acc => ∃ es : List (List Char × α), Separated S (es.map Prod.fst) w ∧
      (∀ e ∈ es, Q e.1 e.2) ∧ acc = into.extend into.empty (es.map Prod.snd) := by
  intro here stop c acc h
  obtain ⟨vs, hrun, -, rfl⟩ := (collect_eq_success (hr.forward stop)).1 h
  obtain ⟨es, w, hw, hc, hsep, hall, rfl⟩ := hrun.exists_separated hsep hitem
  exact ⟨w, hw, hc, es, hsep, hall, rfl⟩

end Repetition

/-! ## Runs of characters and white space -/

/-- Texts with nothing between them. -/
theorem Separated.eq_flatten {ws : List (List Char)} {t : List Char} (h : Separated (· = []) ws t) :
    t = ws.flatten := by
  have hfollow : ∀ {ws u}, Following (· = []) ws u → u = ws.flatten := by
    intro ws u h
    induction h with
    | nil => rfl
    | cons hs _ ih => rw [hs, ih, List.flatten_cons, List.nil_append]
  cases ws with
  | nil => exact h
  | cons w ws =>
    obtain ⟨u, hu, rfl⟩ := h
    rw [hfollow hu, List.flatten_cons]

/-- A repetition whose items are single characters, with nothing between them. -/
theorem Repetition.reads_characters {r : Repetition α} (hr : r.Agrees r) {into : Container α σ}
    {accepts : Char → Bool} {f : Char → α} (hsep : r.separator.Reads fun w _ => w = [])
    (hitem : r.item.Reads fun w v => ∃ c, w = [c] ∧ accepts c = true ∧ v = f c) :
    (r.collect into).Reads fun w acc =>
      (∀ c ∈ w, accepts c = true) ∧ acc = into.extend into.empty (w.map f) := by
  refine (reads_collect hr hsep hitem).mono ?_
  rintro w acc ⟨es, hes, hall, rfl⟩
  have hchars : (∀ c ∈ w, accepts c = true) ∧ es.map Prod.snd = w.map f := by
    rw [hes.eq_flatten]
    clear hes
    induction es with
    | nil => exact ⟨List.forall_mem_nil _, rfl⟩
    | cons e es ih =>
      obtain ⟨⟨c, hw, hc, hv⟩, hall⟩ := List.forall_mem_cons.1 hall
      obtain ⟨hes, hmap⟩ := ih hall
      rw [List.map_cons, List.map_cons, List.flatten_cons, hw, hv, hmap]
      exact ⟨List.forall_mem_cons.2 ⟨hc, hes⟩, rfl⟩
  exact ⟨hchars.1, by rw [hchars.2]⟩

namespace Parser

theorem reads_times {b : Bounds} {accepts : Char → Bool} {into : Container Char σ} :
    ((times b (charIf accepts)).collect into).Reads fun w acc =>
      (∀ c ∈ w, accepts c = true) ∧ acc = into.extend into.empty w := by
  have hsep : (times b (charIf accepts)).separator.Reads fun w _ => w = [] :=
    (reads_succeed ()).mono fun w _ h => h.1
  have hitem : (charIf accepts).Reads fun w v => ∃ c, w = [c] ∧ accepts c = true ∧ v = id c :=
    (reads_charIf accepts).mono fun w v h => ⟨v, h.1, h.2, rfl⟩
  have h : ((times b (charIf accepts)).collect into).Reads _ :=
    Repetition.reads_characters (agrees_times b (agrees_charIf _)) hsep hitem
  simpa only [List.map_id] using h

theorem reads_textSpace : textSpace.Reads fun w _ => Spaces w := by
  refine reads_times.mono ?_
  rintro w u ⟨h, -⟩
  exact h

theorem reads_spacedChar {c : Char} (hc : Predicate.isBlank c = false) :
    (spacedChar c).Reads fun w _ => Padded c w := by
  unfold spacedChar
  rw [hc]
  refine (reads_textSpace.bind fun _ => (reads_char c).bind fun _ => reads_textSpace).mono ?_
  rintro w - ⟨a, -, _, ha, ⟨_, -, b, rfl, hb, rfl⟩, rfl⟩
  exact ⟨a, b, ha, hb, rfl⟩

end Parser

end PegParsing
