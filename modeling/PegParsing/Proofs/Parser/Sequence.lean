import PegParsing.Proofs.Parser.Success

/-!
# The steps of a sequence

The steps of a sequence are its parts with the separator between every two of them (`steps`). They
run one behind the other. `Passes` says that all of them succeed, and `Runs` what their run answers:
the values that count, or the answer of the first step that does not succeed. It is the answer of the
sequence (`sequence_eq_iff`).

Two sequences with the separator between them run as one (`sequence_append`).
-/

namespace PegParsing

variable {α β γ σ : Type} {here mid stop c : Cursor}

/-- Which of the values of some parts count, in order. -/
def Part.payload (qs : List (Part α)) (vs : List α) : List α :=
  ((qs.zip vs).filter fun (q, _) => q.kind = .value).map Prod.snd

theorem Kind.collect_append (k : Kind) (v : α) (vs ws : List α) :
    k.collect v (vs ++ ws) = k.collect v vs ++ ws := by
  cases k <;> rfl

namespace Part

theorem payload_cons (q : Part α) (qs : List (Part α)) (v : α) (vs : List α) :
    payload (q :: qs) (v :: vs) = q.kind.collect v (payload qs vs) := by
  unfold payload
  cases h : q.kind <;> simp [h, Kind.collect]

end Part

namespace Chain

theorem size_foldl_append (sep : Parser σ) (qs : List (Part α)) (c : Chain α) :
    (qs.foldl (append sep) c).size = c.size + qs.length := by
  induction qs generalizing c with
  | nil => rfl
  | cons q qs ih =>
    rw [List.foldl_cons, ih, List.length_cons, Nat.add_comm qs.length, ← Nat.add_assoc]
    rfl

theorem size_ofParts (sep : Parser σ) (qs : List (Part α)) : (ofParts sep qs).size = qs.length :=
  (size_foldl_append sep qs start).trans (Nat.zero_add _)

/-- It makes no difference how many of the parts were there before the others were added. -/
theorem parser_foldl_ofParts (sep : Parser σ) (qs rest : List (Part α)) :
    (rest.foldl (append sep) (ofParts sep qs)).parser = Parser.sequence sep (qs ++ rest) := by
  rw [← parser_ofParts, ofParts, ofParts, List.foldl_append]

end Chain

namespace Parser

/-! ## Separators as steps of their own -/

def steps (sep : Parser α) (qs : List (Part α)) : List (Part α) := qs.intersperse ⟨.skip, sep⟩

theorem sequence_empty (qs : List (Part α)) : sequence empty qs = sequenceTail empty qs := by
  cases qs <;> rfl

theorem sequenceTail_empty_cons (q : Part α) (qs : List (Part α)) :
    sequenceTail empty (q :: qs) =
      q.parser.bind fun v => (sequenceTail empty qs).map (q.kind.collect v) := rfl

theorem map_skip_collect (u : α) (p : Parser (List α)) : p.map (Kind.skip.collect u) = p := by
  rw [map_eq_bind]
  exact bind_succeed p

theorem steps_cons (sep : Parser α) (q : Part α) {qs : List (Part α)} (hne : qs ≠ []) :
    steps sep (q :: qs) = q :: ⟨.skip, sep⟩ :: steps sep qs := by
  cases qs with
  | nil => exact absurd rfl hne
  | cons r qs => rfl

theorem sequenceTail_eq_steps (sep : Parser α) {qs : List (Part α)} (hne : qs ≠ []) :
    sequenceTail sep qs = sequenceTail empty (⟨.skip, sep⟩ :: steps sep qs) := by
  induction qs with
  | nil => exact absurd rfl hne
  | cons q qs ih =>
    rw [sequenceTail_empty_cons, sequenceTail]
    simp only [map_skip_collect]
    by_cases hnil : qs = []
    · rw [hnil]
      rfl
    · rw [ih hnil, steps_cons sep q hnil, sequenceTail_empty_cons q]

theorem sequence_eq_steps (sep : Parser α) (qs : List (Part α)) :
    sequence sep qs = sequenceTail empty (steps sep qs) := by
  cases qs with
  | nil => rfl
  | cons q qs =>
    by_cases hnil : qs = []
    · rw [hnil]
      rfl
    · rw [sequence, sequenceTail_eq_steps sep hnil, steps_cons sep q hnil, sequenceTail_empty_cons q]

/-! ## Runs -/

/-- The steps succeed one behind the other, the last one at the last cursor. -/
inductive Passes (stop : Cursor) : List (Part α) → Cursor → List α → Cursor → Prop
  | nil {here : Cursor} : Passes stop [] here [] here
  | cons {q : Part α} {qs : List (Part α)} {here mid c : Cursor} {v : α} {vs : List α} :
      q.parser here stop = some (.success mid v) → Passes stop qs mid vs c →
      Passes stop (q :: qs) here (v :: vs) c

/-- What steps that run one behind the other answer. -/
inductive Runs (stop : Cursor) (qs : List (Part α)) (here : Cursor) :
    Option (Parsed (List α)) → Prop
  | passed {vs : List α} {c : Cursor} : Passes stop qs here vs c →
      Runs stop qs here (some (.success c (Part.payload qs vs)))
  | failed {before after : List (Part α)} {q : Part α} {vs : List α} {mid c : Cursor}
      {code : ErrorCode} : qs = before ++ q :: after → Passes stop before here vs mid →
      q.parser mid stop = some (.failure c code) → Runs stop qs here (some (.failure c code))
  | unfinished {before after : List (Part α)} {q : Part α} {vs : List α} {mid : Cursor} :
      qs = before ++ q :: after → Passes stop before here vs mid → q.parser mid stop = none →
      Runs stop qs here none

/-- A step that succeeds in front of others puts its value in front of theirs, if it counts. -/
theorem Runs.cons {q : Part α} {qs : List (Part α)} {v : α} {o : Option (Parsed (List α))}
    (hq : q.parser here stop = some (.success mid v)) (h : Runs stop qs mid o) :
    Runs stop (q :: qs) here (o.map (Parsed.map (q.kind.collect v))) := by
  cases h with
  | @passed vs c hvs =>
    rw [Option.map_some, Parsed.map_success, ← Part.payload_cons]
    exact .passed (.cons hq hvs)
  | failed heq hbefore hc => exact .failed (congrArg (q :: ·) heq) (.cons hq hbefore) hc
  | unfinished heq hbefore hc => exact .unfinished (congrArg (q :: ·) heq) (.cons hq hbefore) hc

theorem runs_sequenceTail (qs : List (Part α)) :
    Runs stop qs here (sequenceTail empty qs here stop) := by
  induction qs generalizing here with
  | nil => exact .passed .nil
  | cons q qs ih =>
    rw [sequenceTail_empty_cons]
    rcases hq : q.parser here stop with _ | ⟨c, code | v⟩
    · rw [bind_of_none hq]
      exact .unfinished (List.nil_append _).symm .nil hq
    · rw [bind_of_failure hq]
      exact .failed (List.nil_append _).symm .nil hq
    · rw [bind_of_success hq]
      exact ih.cons hq

/-- Behind steps that succeed, the others run from where they end. -/
theorem Passes.sequenceTail_append {qs : List (Part α)} {vs : List α}
    (h : Passes stop qs here vs mid) (rest : List (Part α)) :
    sequenceTail empty (qs ++ rest) here stop =
      (sequenceTail empty rest mid stop).map (Parsed.map (Part.payload qs vs ++ ·)) := by
  induction h with
  | @nil here =>
    rw [List.nil_append]
    rcases sequenceTail empty rest here stop with _ | ⟨d, code | ws⟩ <;> rfl
  | @cons q qs here mid c v vs hq _ ih =>
    rw [List.cons_append, sequenceTail_empty_cons, bind_of_success hq]
    change Option.map (Parsed.map (q.kind.collect v)) (sequenceTail empty (qs ++ rest) mid stop) = _
    rw [ih, Option.map_map]
    congr 1
    funext r
    rw [Function.comp_apply, Parsed.map_map, Part.payload_cons]
    congr 1
    funext ws
    exact Kind.collect_append _ _ _ _

theorem Runs.sequenceTail_eq {qs : List (Part α)} {o : Option (Parsed (List α))}
    (h : Runs stop qs here o) : sequenceTail empty qs here stop = o := by
  cases h with
  | @passed vs c hvs =>
    have hall := hvs.sequenceTail_append []
    rw [List.append_nil] at hall
    rw [hall]
    change some (Parsed.success c (Part.payload qs vs ++ [])) = _
    rw [List.append_nil]
  | failed heq hbefore hc =>
    rw [heq, hbefore.sequenceTail_append, sequenceTail_empty_cons, bind_of_failure hc]
    rfl
  | unfinished heq hbefore hc =>
    rw [heq, hbefore.sequenceTail_append, sequenceTail_empty_cons, bind_of_none hc]
    rfl

/-- The answer of a sequence is that of the run of its steps. -/
theorem sequence_eq_iff {sep : Parser α} {qs : List (Part α)} {o : Option (Parsed (List α))} :
    sequence sep qs here stop = o ↔ Runs stop (steps sep qs) here o := by
  rw [sequence_eq_steps]
  constructor
  · rintro rfl
    exact runs_sequenceTail _
  · exact Runs.sequenceTail_eq

/-! ## Two sequences -/

theorem sequenceTail_eq_bind (sep : Parser σ) {qs : List (Part α)} (hne : qs ≠ []) :
    sequenceTail sep qs = sep.bind fun _ => sequence sep qs := by
  cases qs with
  | nil => exact absurd rfl hne
  | cons q qs => rfl

/-- One parser behind the other, with the separator between them. -/
def both (p : Parser α) (sep : Parser σ) (q : Parser β) (f : α → β → γ) : Parser γ :=
  p.bind fun v => sep.bind fun _ => q.map (f v)

theorem map_both {δ : Type} (p : Parser α) (sep : Parser σ) (q : Parser β) (f : α → β → γ)
    (g : γ → δ) : (both p sep q f).map g = both p sep q fun v w => g (f v w) := by
  simp only [both, map_eq_bind, bind_assoc, succeed_bind]

/-- Where two parsers in a row end, and with which failure, has nothing to do with their values. -/
theorem skip_both (p : Parser α) (sep : Parser σ) (q : Parser β) (f : α → β → γ) :
    (both p sep q f).skip = both p sep q fun _ _ => () := map_both p sep q f _

theorem both_eq_success {p : Parser α} {sep : Parser σ} {q : Parser β} {f : α → β → γ} {w : γ} :
    both p sep q f here stop = some (.success c w) ↔
      ∃ v u mid next x, p here stop = some (.success mid v) ∧ sep mid stop = some (.success next x) ∧
        q next stop = some (.success c u) ∧ w = f v u := by
  simp only [both, bind_eq_success, map_eq_success]
  constructor
  · rintro ⟨mid, v, hp, next, x, hsep, u, hq, rfl⟩
    exact ⟨v, u, mid, next, x, hp, hsep, hq, rfl⟩
  · rintro ⟨v, u, mid, next, x, hp, hsep, hq, rfl⟩
    exact ⟨mid, v, hp, next, x, hsep, u, hq, rfl⟩

theorem sequence_append (sep : Parser σ) {qs rest : List (Part α)} (hqs : qs ≠ [])
    (hrest : rest ≠ []) :
    sequence sep (qs ++ rest) = both (sequence sep qs) sep (sequence sep rest) (· ++ ·) := by
  have hsize : (Chain.ofParts sep qs).size ≠ 0 := by
    rw [Chain.size_ofParts]
    exact mt List.length_eq_zero_iff.1 hqs
  rw [← Chain.parser_foldl_ofParts, Chain.parser_foldl_append _ _ _ hsize, Chain.parser_ofParts,
    sequenceTail_eq_bind sep hrest]
  simp only [both, map_eq_bind, bind_assoc]

theorem sequence_pair (sep : Parser σ) (q r : Part α) : sequence sep [q, r] =
    both q.parser sep r.parser fun v w => q.kind.collect v (r.kind.collect w []) := by
  simp only [sequence, sequenceTail, both, map_eq_bind, bind_assoc, succeed_bind]

end Parser

end PegParsing
