import PegParsing.Proofs.Grammar.Gathering
import PegParsing.Proofs.Grammar.Locality
import PegParsing.Proofs.Grammar.Sequence

/-!
# What is captured

`raw` keeps the text that a grammar reads in place of its value. `Grammar.raw_captures` says that
nothing of the text is lost: it is what the window shows up to where the grammar ends. What is captured
of a sequence is what is captured of its parts and separators, each where the one before it ended, one
behind the other; and what is captured of a repetition is what is captured of the items that it
accepts and of the separators between them. An attempt that the repetition gives up leaves no trace.
-/

namespace PegParsing.Grammar

open Cursor PegParsing.Parser

/-- The texts that grammars capture one behind the other, each where the one before it ended. -/
inductive Captures (R : String → Parser Value) (stop : Cursor) :
    List Grammar → Cursor → List (List Char) → Cursor → Prop
  | nil {here : Cursor} : Captures R stop [] here [] here
  | cons {g : Grammar} {gs : List Grammar} {here mid c : Cursor} {w : List Char}
      {ws : List (List Char)} :
      denote R (.raw g) here stop = some (.success mid (.str (String.ofList w))) →
      Captures R stop gs mid ws c → Captures R stop (g :: gs) here (w :: ws) c

variable {R : String → Parser Value} {here stop mid c : Cursor} {w : List Char}
  {ws : List (List Char)} {g : Grammar} {gs hs : List Grammar}

/-! ## One grammar -/

theorem skip_denote_raw (g : Grammar) : (denote R (.raw g)).skip = (denote R g).skip := by
  rw [denote]
  unfold Parser.skip
  rw [Parser.map_map]
  funext here stop
  unfold Parser.map Parser.raw
  rw [Option.map_map]
  congr 1
  funext r
  rcases r with ⟨c, code | v⟩ <;> rfl

theorem denote_raw_eq_success {v : Value} : denote R (.raw g) here stop = some (.success c v) ↔
    (∃ u, denote R g here stop = some (.success c u)) ∧ v = .str (String.ofList (here.textTo c)) := by
  rw [denote, map_eq_success]
  simp only [raw_eq_success]
  constructor
  · rintro ⟨_, ⟨u, hu, rfl⟩, rfl⟩
    exact ⟨⟨u, hu⟩, rfl⟩
  · rintro ⟨⟨u, hu⟩, rfl⟩
    exact ⟨_, ⟨u, hu, rfl⟩, rfl⟩

theorem denote_raw_eq_text : denote R (.raw g) here stop = some (.success c (.str (String.ofList w))) ↔
    (∃ u, denote R g here stop = some (.success c u)) ∧ w = here.textTo c := by
  rw [denote_raw_eq_success, Value.str.injEq, String.ofList_inj]

/-! ## One behind the other -/

namespace Captures

theorem append (hg : Captures R stop gs here ws mid) {us : List (List Char)}
    (hh : Captures R stop hs mid us c) : Captures R stop (gs ++ hs) here (ws ++ us) c := by
  induction hg with
  | nil => exact hh
  | cons hw _ ih => exact .cons hw (ih hh)

/-- What was captured piece by piece is all that stands between the first place and the last. -/
theorem flatten_eq (hR : ∀ name, (R name).Agrees (R name)) (h : Captures R stop gs here ws c) :
    here.Reaches stop c ∧ ws.flatten = here.textTo c := by
  induction h with
  | @nil here =>
    refine ⟨Reaches.refl here stop, ?_⟩
    unfold textTo
    rw [if_pos (Nat.le_refl _)]
    rfl
  | @cons g gs here mid c w ws hw _ ih =>
    obtain ⟨⟨u, hu⟩, rfl⟩ := denote_raw_eq_text.1 hw
    obtain ⟨hc, hws⟩ := ih
    have hmid : here.Reaches stop mid := (g.agrees hR).reaches hu
    exact ⟨hmid.trans hc, by rw [List.flatten_cons, hws, hmid.textTo_append hc]⟩

end Captures

/-! ## Sequences -/

/-- Steps that succeed are captured, whether their values count or not. -/
theorem exists_captures_of_passes {qs : List (Part Value)} {vs : List Value}
    (h : Passes stop qs here vs c) (hqs : qs.map Part.parser = gs.map (denote R)) :
    ∃ ws, Captures R stop gs here ws c := by
  induction h generalizing gs with
  | nil =>
    obtain rfl := List.map_eq_nil_iff.1 hqs.symm
    exact ⟨[], .nil⟩
  | cons hq _ ih =>
    obtain ⟨g, gs, rfl, hg, htail⟩ := List.map_eq_cons_iff.1 hqs.symm
    obtain ⟨ws, hws⟩ := ih htail.symm
    rw [← hg] at hq
    exact ⟨_, .cons (denote_raw_eq_text.2 ⟨⟨_, hq⟩, rfl⟩) hws⟩

theorem Captures.exists_passes (h : Captures R stop gs here ws c) {qs : List (Part Value)}
    (hqs : qs.map Part.parser = gs.map (denote R)) : ∃ vs, Passes stop qs here vs c := by
  induction h generalizing qs with
  | nil =>
    obtain rfl := List.map_eq_nil_iff.1 hqs
    exact ⟨[], .nil⟩
  | cons hw _ ih =>
    obtain ⟨q, qs, rfl, hq, htail⟩ := List.map_eq_cons_iff.1 hqs
    obtain ⟨vs, hvs⟩ := ih htail
    obtain ⟨⟨u, hu⟩, -⟩ := denote_raw_eq_text.1 hw
    rw [← hq] at hu
    exact ⟨u :: vs, .cons hu hvs⟩

theorem map_intersperse {α β : Type} (f : α → β) (sep : α) (xs : List α) :
    (xs.intersperse sep).map f = (xs.map f).intersperse (f sep) := by
  induction xs with
  | nil => rfl
  | cons x xs ih =>
    cases xs with
    | nil => rfl
    | cons y xs =>
      rw [List.intersperse_cons_cons, List.map_cons, List.map_cons, ih]
      rfl

theorem map_parser_steps (sep : Grammar) (gs : List Grammar) :
    (steps R sep gs).map Part.parser = (gs.intersperse sep).map (denote R) := by
  unfold steps Parser.steps
  rw [map_intersperse, map_intersperse, List.map_map]
  rfl

theorem denote_raw_sequence_eq_text (hR : ∀ name, (R name).Agrees (R name)) {sep : Grammar}
    {s : String} : denote R (.raw (.sequence sep gs)) here stop = some (.success c (.str s)) ↔
      ∃ ws, Captures R stop (gs.intersperse sep) here ws c ∧ s = String.ofList ws.flatten := by
  rw [denote_raw_eq_success, Value.str.injEq]
  constructor
  · rintro ⟨⟨u, hu⟩, rfl⟩
    obtain ⟨vs, ha, -⟩ := denote_sequence_eq_success.1 hu
    cases ha with
    | passed hvs =>
      obtain ⟨ws, hws⟩ := exists_captures_of_passes hvs (map_parser_steps sep gs)
      exact ⟨ws, hws, by rw [(hws.flatten_eq hR).2]⟩
  · rintro ⟨ws, hws, rfl⟩
    obtain ⟨vs, hvs⟩ := hws.exists_passes (map_parser_steps sep gs)
    have hdenote := denote_sequence_eq_success.2 ⟨_, .passed hvs, Value.packs_iff.2 rfl⟩
    exact ⟨⟨_, hdenote⟩, by rw [(hws.flatten_eq hR).2]⟩

/-! ## Repetitions -/

section Repetition

variable {sep : Grammar} {r : Repetition Value} {count : Nat} {vs : List Value} {last : Cursor}

theorem exists_captures_of_item (hitem : r.item = denote R g) {v : Value}
    (h : r.item here stop = some (.success mid v)) : ∃ w, Captures R stop [g] here [w] mid := by
  rw [hitem] at h
  exact ⟨_, .cons (denote_raw_eq_text.2 ⟨⟨v, h⟩, rfl⟩) .nil⟩

/-- A round behind other items is captured as its separator and its item. -/
theorem exists_captures_of_round (hsep : r.separator = (denote R sep).skip)
    (hitem : r.item = denote R g) (hcount : count ≠ 0) {v : Value}
    (h : r.round count here stop = some (.success mid v)) :
    ∃ ws, Captures R stop [sep, g] here ws mid := by
  unfold Repetition.round Repetition.separatorAt at h
  rw [if_neg hcount, hsep] at h
  obtain ⟨next, _, hnext, hv⟩ := bind_eq_success.1 h
  obtain ⟨u, hu⟩ := skip_eq_success.1 hnext
  obtain ⟨w, hw⟩ := exists_captures_of_item hitem hv
  exact ⟨_, .cons (denote_raw_eq_text.2 ⟨⟨u, hu⟩, rfl⟩) hw⟩

theorem exists_captures_of_run_behind (hsep : r.separator = (denote R sep).skip)
    (hitem : r.item = denote R g) (h : r.Run stop count here vs last) (hcount : count ≠ 0) :
    ∃ ws, Captures R stop (List.replicate vs.length [sep, g]).flatten here ws last := by
  induction h with
  | full | failed => exact ⟨[], .nil⟩
  | stalled hfull hround hst => exact exists_captures_of_round hsep hitem hcount hround
  | next hfull hround hst hrun ih =>
    obtain ⟨ws, hws⟩ := exists_captures_of_round hsep hitem hcount hround
    obtain ⟨us, hus⟩ := ih (Nat.succ_ne_zero _)
    exact ⟨ws ++ us, hws.append hus⟩

theorem intersperse_replicate_succ {α : Type} (sep x : α) (n : Nat) :
    (List.replicate (n + 1) x).intersperse sep = x :: (List.replicate n [sep, x]).flatten := by
  induction n with
  | zero => rfl
  | succ n ih =>
    rw [List.replicate_succ, List.replicate_succ, List.intersperse_cons_cons, ← List.replicate_succ, ih]
    rfl

/-- A run from the beginning is captured as its items with the separators between them. -/
theorem exists_captures_of_run (hsep : r.separator = (denote R sep).skip)
    (hitem : r.item = denote R g) (h : r.Run stop 0 here vs last) :
    ∃ ws, Captures R stop ((List.replicate vs.length g).intersperse sep) here ws last := by
  cases h with
  | full | failed => exact ⟨[], .nil⟩
  | stalled hfull hround hst =>
    obtain ⟨w, hw⟩ := exists_captures_of_item hitem hround
    exact ⟨[w], hw⟩
  | next hfull hround hst hrun =>
    obtain ⟨w, hw⟩ := exists_captures_of_item hitem hround
    obtain ⟨us, hus⟩ := exists_captures_of_run_behind hsep hitem hrun Nat.one_ne_zero
    rw [List.length_cons, intersperse_replicate_succ]
    exact ⟨_, hw.append hus⟩

/-- What is captured of a grammar that answers as a repetition does, whatever it makes of the items. -/
theorem denote_raw_eq_text_of_accepted (hR : ∀ name, (R name).Agrees (R name))
    (hsep : r.separator = (denote R sep).skip) (hitem : r.item = denote R g) {h : Grammar}
    {f : List Value → Value} (hh : denote R h here stop = (r.accepted here stop).map
      fun (vs, last) => (r.close vs.length last).map fun _ => f vs) {s : String} :
    denote R (.raw h) here stop = some (.success c (.str s)) ↔
      ∃ vs ws, r.accepted here stop = some (vs, c) ∧ r.bounds.min ≤ vs.length ∧
        Captures R stop ((List.replicate vs.length g).intersperse sep) here ws c ∧
        s = String.ofList ws.flatten := by
  rw [denote_raw_eq_success, Value.str.injEq, hh]
  simp only [r.map_close_eq_success]
  constructor
  · rintro ⟨⟨-, vs, hvs, hmin, -⟩, rfl⟩
    obtain ⟨ws, hws⟩ := exists_captures_of_run hsep hitem (r.run_of_accepted here stop hvs)
    exact ⟨vs, ws, hvs, hmin, hws, by rw [(hws.flatten_eq hR).2]⟩
  · rintro ⟨vs, ws, hvs, hmin, hws, rfl⟩
    exact ⟨⟨f vs, vs, hvs, hmin, rfl⟩, by rw [(hws.flatten_eq hR).2]⟩

end Repetition

/-! ## What is captured of the whole -/

/-- Capturing changes the value of a grammar and nothing else, and the value is the text that was
read. The text of a sequence, or of a repetition, is that of its pieces in order. -/
theorem raw_captures (rules : Rules) (calls : Nat) (here stop : Cursor) :
    let R := rules.parser calls
    (∀ g, (denote R (.raw g)).skip here stop = (denote R g).skip here stop ∧
      ∀ c v, denote R (.raw g) here stop = some (.success c v) → ∃ w, v = .str (String.ofList w) ∧
        w <+: here.rest stop ∧ c = here.advance (Text.byteLength w)) ∧
    (∀ sep gs c s, denote R (.raw (.sequence sep gs)) here stop = some (.success c (.str s)) ↔
      ∃ ws, Captures R stop (gs.intersperse sep) here ws c ∧ s = String.ofList ws.flatten) ∧
    ∀ b sep g,
      let r : Repetition Value := ⟨b, (denote R sep).skip, denote R g⟩
      ∀ h : Grammar, (h = .repetition b sep g ∨ ∃ into, h = .collect into b sep g) → ∀ c s,
        (denote R (.raw h) here stop = some (.success c (.str s)) ↔
          ∃ vs ws, r.accepted here stop = some (vs, c) ∧ b.min ≤ vs.length ∧
            Captures R stop ((List.replicate vs.length g).intersperse sep) here ws c ∧
            s = String.ofList ws.flatten) := by
  intro R
  have hR : ∀ name, (R name).Agrees (R name) := rules.agrees calls calls
  refine ⟨fun g => ⟨congrFun (congrFun (skip_denote_raw g) here) stop, fun c v h => ?_⟩,
    fun sep gs c s => denote_raw_sequence_eq_text hR, ?_⟩
  · obtain ⟨⟨u, hu⟩, rfl⟩ := denote_raw_eq_success.1 h
    have hreach : here.Reaches stop c := (g.agrees hR).reaches hu
    exact ⟨_, rfl, hreach.textTo_spec⟩
  · rintro b sep g r h (rfl | ⟨into, rfl⟩) c s
    · refine denote_raw_eq_text_of_accepted hR rfl rfl (f := g.kind.gathered) ?_
      rw [denote]
      exact r.ofKind_eq_accepted here stop g.kind
    · refine denote_raw_eq_text_of_accepted hR rfl rfl (f := into.gathered) ?_
      rw [denote]
      exact r.gather_eq_accepted here stop into

end PegParsing.Grammar
