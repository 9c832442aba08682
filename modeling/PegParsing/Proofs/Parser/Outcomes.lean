import PegParsing.Proofs.Parser.Choice
import PegParsing.Proofs.Parser.Success

/-!
# What a parser may answer

`Yields` and `Reports` say which values and which failures a parser has in some window. One lemma for
each combinator tells them from those of its parts: for a value the parts that it is made of, and for a
failure the one part that it came from, or the combinator itself.

Some failures are never seen again. What stands under `opt` does not fail at all, a repetition fails
only for want of items, and a choice fails only where each of its alternatives does.
-/

namespace PegParsing

variable {α β γ σ : Type} {here stop last : Cursor}

namespace Parser

/-- The parser has that value in some window. -/
def Yields (p : Parser α) (v : α) : Prop := ∃ here stop c, p here stop = some (.success c v)

/-- The parser has that failure in some window. -/
def Reports (p : Parser α) (code : ErrorCode) : Prop :=
  ∃ here stop c, p here stop = some (.failure c code)

/-! ## Values -/

section Yields

variable {p : Parser α} {v : α} {w : β}

theorem Yields.of_map {f : α → β} (h : (p.map f).Yields w) : ∃ v, p.Yields v ∧ w = f v := by
  obtain ⟨here, stop, c, h⟩ := h
  obtain ⟨v, hv, hw⟩ := map_eq_success.1 h
  exact ⟨v, ⟨here, stop, c, hv⟩, hw⟩

theorem Yields.of_apply {f : α → Except ErrorCode β} (h : (p.apply f).Yields w) :
    ∃ v, p.Yields v ∧ f v = .ok w := by
  obtain ⟨here, stop, c, h⟩ := h
  obtain ⟨v, hv, hw⟩ := apply_eq_success.1 h
  exact ⟨v, ⟨here, stop, c, hv⟩, hw⟩

theorem Yields.of_check {accepts : α → Bool} (h : (check accepts p).Yields v) :
    p.Yields v ∧ accepts v = true := by
  obtain ⟨w, hw, h⟩ := h.of_apply
  by_cases hacc : accepts w
  · rw [if_pos hacc] at h
    cases h
    exact ⟨hw, hacc⟩
  · rw [if_neg hacc] at h
    cases h

theorem Yields.of_opt {o : Option α} (h : p.opt.Yields o) :
    o = none ∨ ∃ v, p.Yields v ∧ o = some v := by
  obtain ⟨here, stop, c, h⟩ := h
  rcases opt_eq_success.1 h with ⟨v, hv, rfl⟩ | ⟨-, -, rfl⟩
  · exact .inr ⟨v, ⟨here, stop, c, hv⟩, rfl⟩
  · exact .inl rfl

theorem Yields.of_enabled {on : Bool} (h : (enabled on p).Yields v) : on = true ∧ p.Yields v := by
  obtain ⟨here, stop, c, h⟩ := h
  obtain ⟨hon, hv⟩ := enabled_eq_success.1 h
  exact ⟨hon, here, stop, c, hv⟩

theorem Yields.of_onlyWhere {must : Parser γ} (h : (onlyWhere must p).Yields v) : p.Yields v := by
  obtain ⟨here, stop, c, h⟩ := h
  exact ⟨here, stop, c, (onlyWhere_eq_success.1 h).2⟩

theorem Yields.of_exceptWhere {non : Parser γ} (h : (exceptWhere non p).Yields v) : p.Yields v := by
  obtain ⟨here, stop, c, h⟩ := h
  exact ⟨here, stop, c, (exceptWhere_eq_success.1 h).2⟩

theorem Yields.of_choice {ps : List (Parser α)} (h : (choice ps).Yields v) :
    ∃ p ∈ ps, p.Yields v := by
  obtain ⟨here, stop, c, h⟩ := h
  obtain ⟨p, hp, hv⟩ := exists_of_choice h
  exact ⟨p, hp, here, stop, c, hv⟩

theorem Yields.of_taggedChoice {ps : List (Parser α)} {tag : Nat → α → β}
    (h : (taggedChoice tag ps).Yields w) :
    ∃ i p v, ps[i]? = some p ∧ p.Yields v ∧ w = tag i v := by
  obtain ⟨q, hq, hw⟩ := h.of_choice
  obtain ⟨⟨p, i⟩, hp, rfl⟩ := List.mem_map.1 hq
  obtain ⟨v, hv, rfl⟩ := hw.of_map
  exact ⟨i, p, v, List.mem_zipIdx_iff_getElem?.1 hp, hv, rfl⟩

/-- A part puts its value in front of the others if it counts. -/
theorem forall₂_yields_cons {q : Part α} {qs : List (Part α)} {vs : List α} (hv : q.parser.Yields v)
    (h : List.Forall₂ (fun q v => q.parser.Yields v) (qs.filter (·.kind = .value)) vs) :
    List.Forall₂ (fun q v => q.parser.Yields v) ((q :: qs).filter (·.kind = .value))
      (q.kind.collect v vs) := by
  cases hk : q.kind with
  | skip =>
    rw [List.filter_cons_of_neg (by simp [hk])]
    exact h
  | value =>
    rw [List.filter_cons_of_pos (by simp [hk])]
    exact .cons hv h

theorem forall₂_yields_of_sequenceTail {sep : Parser σ} {qs : List (Part α)} {vs : List α}
    (h : sequenceTail sep qs here stop = some (.success last vs)) :
    List.Forall₂ (fun q v => q.parser.Yields v) (qs.filter (·.kind = .value)) vs := by
  induction qs generalizing here vs with
  | nil =>
    obtain ⟨-, rfl⟩ := succeed_eq_success.1 h
    exact .nil
  | cons q qs ih =>
    obtain ⟨mid, u, next, v, ws, -, hq, hqs, rfl⟩ := sequenceTail_cons_eq_success.1 h
    exact forall₂_yields_cons ⟨mid, stop, next, hq⟩ (ih hqs)

/-- The values of a sequence are those of the parts that count, in order. -/
theorem Yields.of_sequence {sep : Parser σ} {qs : List (Part α)} {vs : List α}
    (h : (sequence sep qs).Yields vs) :
    List.Forall₂ (fun q v => q.parser.Yields v) (qs.filter (·.kind = .value)) vs := by
  obtain ⟨here, stop, c, h⟩ := h
  cases qs with
  | nil =>
    cases h
    exact .nil
  | cons q qs =>
    obtain ⟨next, v, ws, hq, hqs, rfl⟩ := sequence_cons_eq_success.1 h
    exact forall₂_yields_cons ⟨here, stop, next, hq⟩ (forall₂_yields_of_sequenceTail hqs)

end Yields

/-! ## Failures -/

section Reports

variable {p : Parser α} {code other : ErrorCode}

theorem not_reports_succeed {v : α} : ¬ (succeed v).Reports code := by
  rintro ⟨here, stop, c, h⟩
  cases h

theorem Reports.of_failAt (h : (failAt other : Parser α).Reports code) : code = other := by
  obtain ⟨here, stop, c, h⟩ := h
  cases h
  rfl

theorem Reports.of_bind {f : α → Parser β} (h : (p.bind f).Reports code) :
    p.Reports code ∨ ∃ v, (f v).Reports code := by
  obtain ⟨here, stop, c, h⟩ := h
  rcases hp : p here stop with _ | ⟨d, last | v⟩
  · rw [bind_of_none hp] at h
    cases h
  · rw [bind_of_failure hp] at h
    cases h
    exact .inl ⟨here, stop, c, hp⟩
  · rw [bind_of_success hp] at h
    exact .inr ⟨v, d, stop, c, h⟩

theorem Reports.of_map {f : α → β} (h : (p.map f).Reports code) : p.Reports code := by
  obtain ⟨here, stop, c, h⟩ := h
  exact ⟨here, stop, c, map_eq_failure.1 h⟩

theorem Reports.of_apply {f : α → Except ErrorCode β} (h : (p.apply f).Reports code) :
    p.Reports code ∨ ∃ v, f v = .error code := by
  obtain ⟨here, stop, c, h⟩ := h
  obtain ⟨⟨d, last | v⟩, hp, h⟩ := Option.map_eq_some_iff.1 h
  · cases h
    exact .inl ⟨here, stop, _, hp⟩
  · exact .inr ⟨v, (Parsed.mk.inj h).2⟩

theorem Reports.of_check {accepts : α → Bool} (h : (check accepts p).Reports code) :
    p.Reports code ∨ code = .expectedType := by
  refine h.of_apply.imp_right fun ⟨v, hv⟩ => ?_
  split at hv <;> cases hv
  rfl

theorem not_reports_opt : ¬ p.opt.Reports code := by
  rintro ⟨here, stop, c, h⟩
  obtain ⟨⟨d, last | v⟩, -, h⟩ := Option.map_eq_some_iff.1 h <;> cases h

theorem Reports.of_raw (h : p.raw.Reports code) : p.Reports code := by
  obtain ⟨here, stop, c, h⟩ := h
  obtain ⟨⟨d, last | v⟩, hp, h⟩ := Option.map_eq_some_iff.1 h
  · cases h
    exact ⟨here, stop, _, hp⟩
  · cases h

theorem Reports.of_enabled {on : Bool} (h : (enabled on p).Reports code) :
    on = true ∧ p.Reports code ∨ on = false ∧ code = .alwaysFail := by
  cases on with
  | false => exact .inr ⟨rfl, Reports.of_failAt (α := α) h⟩
  | true => exact .inl ⟨rfl, h⟩

theorem Reports.of_onlyWhere {must : Parser γ} (h : (onlyWhere must p).Reports code) :
    p.Reports code ∨ (∃ other, must.Reports other) ∧ code = .symbolNotFound := by
  obtain ⟨here, stop, c, h⟩ := h
  obtain ⟨⟨d, other | u⟩, hm, h⟩ := Option.bind_eq_some_iff.1 h
  · cases h
    exact .inr ⟨⟨other, here, stop, c, hm⟩, rfl⟩
  · exact .inl ⟨here, stop, c, h⟩

theorem Reports.of_exceptWhere {non : Parser γ} (h : (exceptWhere non p).Reports code) :
    p.Reports code ∨ code = .symbolNotExpected := by
  obtain ⟨here, stop, c, h⟩ := h
  obtain ⟨⟨d, other | u⟩, -, h⟩ := Option.bind_eq_some_iff.1 h
  · exact .inl ⟨here, stop, c, h⟩
  · cases h
    exact .inr rfl

/-- A choice fails where the alternative that it selects is the furthest of those that fail, and so
where all do. -/
theorem Reports.of_choice {ps : List (Parser α)} (hne : ps ≠ []) (h : (choice ps).Reports code) :
    (∃ p ∈ ps, p.Reports code) ∧ ∀ p ∈ ps, ∃ other, p.Reports other := by
  obtain ⟨here, stop, c, h⟩ := h
  obtain ⟨i, hi⟩ := (choice_eq_iff hne).1 h
  generalize ho : some (Parsed.failure c code) = o at hi
  cases hi with
  | first hp hnot hbefore => exact absurd ⟨c, code, ho.symm⟩ hnot
  | @furthest p _ _ hp hc hall =>
    cases ho
    refine ⟨⟨p, List.mem_of_getElem? hp, here, stop, c, hc⟩, fun q hq => ?_⟩
    obtain ⟨j, hj⟩ := List.mem_iff_getElem?.1 hq
    obtain ⟨d, other, hd, -⟩ := hall j q hj
    exact ⟨other, here, stop, d, hd⟩

theorem Reports.of_taggedChoice {ps : List (Parser α)} {tag : Nat → α → β} (hne : ps ≠ [])
    (h : (taggedChoice tag ps).Reports code) :
    (∃ p ∈ ps, p.Reports code) ∧ ∀ p ∈ ps, ∃ other, p.Reports other := by
  obtain ⟨⟨q, hq, hcode⟩, hall⟩ := h.of_choice (by simpa using hne)
  obtain ⟨⟨p, i⟩, hp, rfl⟩ := List.mem_map.1 hq
  refine ⟨⟨p, List.fst_mem_of_mem_zipIdx hp, hcode.of_map⟩, fun p hp => ?_⟩
  obtain ⟨i, hi⟩ := List.mem_iff_getElem?.1 hp
  have hmem : (p, i) ∈ ps.zipIdx := List.mem_zipIdx_iff_getElem?.2 hi
  obtain ⟨other, hother⟩ := hall _ (List.mem_map_of_mem hmem)
  exact ⟨other, hother.of_map⟩

theorem Reports.of_sequenceTail {sep : Parser σ} {qs : List (Part α)}
    (h : (sequenceTail sep qs).Reports code) :
    sep.Reports code ∨ ∃ q ∈ qs, q.parser.Reports code := by
  induction qs with
  | nil => exact absurd h not_reports_succeed
  | cons q qs ih =>
    rcases h.of_bind with hsep | ⟨u, h⟩
    · exact .inl hsep
    rcases h.of_bind with hq | ⟨v, h⟩
    · exact .inr ⟨q, List.mem_cons_self, hq⟩
    · exact (ih h.of_map).imp_right fun ⟨q', hmem, hq'⟩ => ⟨q', List.mem_cons_of_mem q hmem, hq'⟩

theorem Reports.of_sequence {sep : Parser σ} {qs : List (Part α)}
    (h : (sequence sep qs).Reports code) : sep.Reports code ∨ ∃ q ∈ qs, q.parser.Reports code := by
  cases qs with
  | nil => exact absurd h not_reports_succeed
  | cons q qs =>
    rcases h.of_bind with hq | ⟨v, h⟩
    · exact .inr ⟨q, List.mem_cons_self, hq⟩
    · exact h.of_map.of_sequenceTail.imp_right fun ⟨q', hmem, hq'⟩ =>
        ⟨q', List.mem_cons_of_mem q hmem, hq'⟩

end Reports

end Parser

/-! ## Repetitions -/

/-- So many are neither too few nor too many. -/
def Bounds.Allows (b : Bounds) (n : Nat) : Prop := b.min ≤ n ∧ ∀ m ∈ b.max, n ≤ m

theorem Bounds.lt_of_not_full {b : Bounds} {count n : Nat} (h : b.full count = false)
    (hn : n ∈ b.max) : count < n := by
  obtain ⟨min, max, hmin⟩ := b
  obtain rfl := Option.mem_def.1 hn
  exact Nat.lt_of_not_le (of_decide_eq_false h)

namespace Repetition

variable {r : Repetition α} {count : Nat} {vs : List α}

theorem close_eq_failure {c : Cursor} {code : ErrorCode} (h : r.close count here = .failure c code) :
    0 < r.bounds.min ∧ code = .tooFew := by
  unfold close at h
  split at h
  · rename_i hlt
    cases h
    exact ⟨Nat.zero_lt_of_lt hlt, rfl⟩
  · cases h

theorem reports_collect {into : Container α σ} {code : ErrorCode}
    (h : (r.collect into).Reports code) : 0 < r.bounds.min ∧ code = .tooFew := by
  obtain ⟨here, stop, c, h⟩ := h
  obtain ⟨⟨acc, q⟩, hdrive, h⟩ := Option.map_eq_some_iff.1 h
  obtain ⟨vs, last, -, hs⟩ := run_of_drive hdrive
  obtain ⟨-, hclose⟩ := Prod.mk.inj hs
  rcases q with ⟨d, other | u⟩
  · cases h
    exact close_eq_failure hclose.symm
  · cases h

namespace Run

theorem yields_of_round {v : α} (h : r.round count here stop = some (.success last v)) :
    r.item.Yields v := by
  obtain ⟨mid, u, -, hv⟩ := Parser.bind_eq_success.1 h
  exact ⟨mid, stop, last, hv⟩

theorem yields (h : Run r stop count here vs last) : ∀ v ∈ vs, r.item.Yields v := by
  induction h with
  | full | failed => exact nofun
  | stalled hfull hround hst => exact List.forall_mem_singleton.2 (yields_of_round hround)
  | next hfull hround hst hrun ih => exact List.forall_mem_cons.2 ⟨yields_of_round hround, ih⟩

/-- A round begins only where the count may still grow. -/
theorem length_le_max {n : Nat} (h : Run r stop count here vs last) (hn : n ∈ r.bounds.max)
    (hcount : count ≤ n) : count + vs.length ≤ n := by
  induction h with
  | full | failed => exact hcount
  | stalled hfull hround hst => exact Bounds.lt_of_not_full hfull hn
  | next hfull hround hst hrun ih =>
    have hlen := ih (Bounds.lt_of_not_full hfull hn)
    rw [List.length_cons]
    omega

theorem allows {c : Cursor} (h : Run r stop 0 here vs last)
    (hclose : r.close vs.length last = .success c ()) : r.bounds.Allows vs.length := by
  refine ⟨(close_eq_success.1 hclose).2, fun n hn => ?_⟩
  have hlen := h.length_le_max hn (Nat.zero_le n)
  omega

end Run

end Repetition

end PegParsing
