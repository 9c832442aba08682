import PegParsing.Parser.Primitive
import PegParsing.Proofs.Parser.Repetition

/-!
# Where a success comes from

One lemma for each combinator: it succeeds just where its parts do, and with what they yield. A
choice is looked at from behind only, since its alternatives before the one that succeeds do not
matter to what was read.
-/

namespace PegParsing

open Cursor

variable {α β σ : Type} {here stop c : Cursor}

namespace Parser

theorem succeed_eq_success {v w : α} :
    succeed v here stop = some (.success c w) ↔ c = here ∧ w = v := by
  unfold succeed
  simp only [Parsed.success, Option.some.injEq, Parsed.mk.injEq, Except.ok.injEq]
  exact and_congr eq_comm eq_comm

theorem failAt_ne_success {code : ErrorCode} {v : α} :
    failAt code here stop ≠ some (.success c v) := nofun

theorem charIf_eq_success {accepts : Char → Bool} {v : Char} :
    charIf accepts here stop = some (.success c v) ↔
      (∃ cs, here.rest stop = v :: cs) ∧ accepts v = true ∧ c = here.advance v.utf8Size := by
  unfold charIf next? peek
  cases hrest : here.rest stop with
  | nil => exact iff_of_false nofun fun h => nomatch h.1
  | cons d cs =>
    by_cases hd : accepts d
    · simp only [List.head?_cons, Option.map_some, hd, if_true, Parsed.success, Option.some.injEq,
        Parsed.mk.injEq, Except.ok.injEq, List.cons.injEq]
      constructor
      · rintro ⟨rfl, rfl⟩
        exact ⟨⟨cs, rfl, rfl⟩, hd, rfl⟩
      · rintro ⟨⟨_, rfl, rfl⟩, -, rfl⟩
        exact ⟨rfl, rfl⟩
    · simp only [List.head?_cons, Option.map_some, hd]
      refine iff_of_false nofun ?_
      rintro ⟨⟨_, h⟩, hv, -⟩
      obtain ⟨rfl, -⟩ := List.cons.inj h
      exact hd hv

theorem bind_of_success {p : Parser α} {v : α} (h : p here stop = some (.success c v))
    (f : α → Parser β) : p.bind f here stop = f v c stop := by
  unfold bind
  rw [h]
  rfl

theorem bind_of_failure {p : Parser α} {code : ErrorCode} (h : p here stop = some (.failure c code))
    (f : α → Parser β) : p.bind f here stop = some (.failure c code) := by
  unfold bind
  rw [h]
  rfl

theorem bind_of_none {p : Parser α} (h : p here stop = none) (f : α → Parser β) :
    p.bind f here stop = none := by
  unfold bind
  rw [h]
  rfl

theorem bind_eq_success {p : Parser α} {f : α → Parser β} {w : β} :
    p.bind f here stop = some (.success c w) ↔
      ∃ d v, p here stop = some (.success d v) ∧ f v d stop = some (.success c w) := by
  constructor
  · intro h
    obtain ⟨⟨d, _ | v⟩, hp, h⟩ := Option.bind_eq_some_iff.1 h
    · cases h
    · exact ⟨d, v, hp, h⟩
  · rintro ⟨d, v, hp, h⟩
    exact (bind_of_success hp f).trans h

theorem apply_eq_success {p : Parser α} {f : α → Except ErrorCode β} {w : β} :
    p.apply f here stop = some (.success c w) ↔
      ∃ v, p here stop = some (.success c v) ∧ f v = .ok w := by
  constructor
  · intro h
    obtain ⟨⟨d, _ | v⟩, hp, h⟩ := Option.map_eq_some_iff.1 h
    · cases h
    · obtain ⟨rfl, hf⟩ := Parsed.mk.inj h
      exact ⟨v, hp, hf⟩
  · rintro ⟨v, hp, hf⟩
    unfold apply
    rw [hp, Option.map_some, Parsed.andThen_success, hf]
    rfl

theorem map_eq_success {p : Parser α} {f : α → β} {w : β} :
    p.map f here stop = some (.success c w) ↔
      ∃ v, p here stop = some (.success c v) ∧ w = f v := by
  rw [map_eq_bind, bind_eq_success]
  constructor
  · rintro ⟨d, v, hp, h⟩
    obtain ⟨rfl, rfl⟩ := succeed_eq_success.1 h
    exact ⟨v, hp, rfl⟩
  · rintro ⟨v, hp, rfl⟩
    exact ⟨c, v, hp, rfl⟩

theorem skip_eq_success {p : Parser α} {u : Unit} :
    p.skip here stop = some (.success c u) ↔ ∃ v, p here stop = some (.success c v) := by
  unfold skip
  rw [map_eq_success]
  exact exists_congr fun v => and_iff_left rfl

theorem opt_eq_success {p : Parser α} {o : Option α} :
    p.opt here stop = some (.success c o) ↔
      (∃ v, p here stop = some (.success c v) ∧ o = some v) ∨
        (∃ d code, p here stop = some (.failure d code)) ∧ c = here ∧ o = none := by
  constructor
  · intro h
    obtain ⟨⟨d, code | v⟩, hp, h⟩ := Option.map_eq_some_iff.1 h
    · cases h
      exact .inr ⟨⟨d, code, hp⟩, rfl, rfl⟩
    · cases h
      exact .inl ⟨v, hp, rfl⟩
  · unfold opt
    rintro (⟨v, hp, rfl⟩ | ⟨⟨d, code, hp⟩, rfl, rfl⟩)
    · rw [hp]
      rfl
    · rw [hp]
      rfl

theorem raw_eq_success {p : Parser α} {cs : List Char} :
    p.raw here stop = some (.success c cs) ↔
      ∃ v, p here stop = some (.success c v) ∧ cs = here.textTo c := by
  constructor
  · intro h
    obtain ⟨⟨d, _ | v⟩, hp, h⟩ := Option.map_eq_some_iff.1 h
    · cases h
    · cases h
      exact ⟨v, hp, rfl⟩
  · rintro ⟨v, hp, rfl⟩
    unfold raw
    rw [hp]
    rfl

theorem enabled_eq_success {on : Bool} {p : Parser α} {v : α} :
    enabled on p here stop = some (.success c v) ↔
      on = true ∧ p here stop = some (.success c v) := by
  cases on with
  | false => exact iff_of_false nofun fun h => Bool.noConfusion h.1
  | true => exact (and_iff_right rfl).symm

theorem onlyWhere_eq_success {must : Parser β} {p : Parser α} {v : α} :
    onlyWhere must p here stop = some (.success c v) ↔
      (∃ d u, must here stop = some (.success d u)) ∧ p here stop = some (.success c v) := by
  constructor
  · intro h
    obtain ⟨⟨d, _ | u⟩, hm, h⟩ := Option.bind_eq_some_iff.1 h
    · cases h
    · exact ⟨⟨d, u, hm⟩, h⟩
  · rintro ⟨⟨d, u, hm⟩, h⟩
    unfold onlyWhere
    rw [hm]
    exact h

theorem exceptWhere_eq_success {non : Parser β} {p : Parser α} {v : α} :
    exceptWhere non p here stop = some (.success c v) ↔
      (∃ d code, non here stop = some (.failure d code)) ∧ p here stop = some (.success c v) := by
  constructor
  · intro h
    obtain ⟨⟨d, code | u⟩, hn, h⟩ := Option.bind_eq_some_iff.1 h
    · exact ⟨⟨d, code, hn⟩, h⟩
    · cases h
  · rintro ⟨⟨d, code, hn⟩, h⟩
    unfold exceptWhere
    rw [hn]
    exact h

/-! ## Choice -/

theorem orElse_eq_success {p q : Parser α} {v : α} :
    orElse p q here stop = some (.success c v) ↔
      p here stop = some (.success c v) ∨
        (∃ d code, p here stop = some (.failure d code)) ∧ q here stop = some (.success c v) := by
  constructor
  · intro h
    obtain ⟨⟨d, code | u⟩, hp, h⟩ := Option.bind_eq_some_iff.1 h
    · obtain ⟨⟨e, other | u⟩, hq, h⟩ := Option.map_eq_some_iff.1 h
      · have hfail : (Parsed.failure d code).furthest (.failure e other) = .success c v := h
        unfold Parsed.furthest at hfail
        split at hfail <;> cases hfail
      · cases h
        exact .inr ⟨⟨d, code, hp⟩, hq⟩
    · cases h
      exact .inl hp
  · unfold orElse
    rintro (hp | ⟨⟨d, code, hp⟩, hq⟩)
    · rw [hp]
      rfl
    · rw [hp]
      show Option.map _ (q here stop) = _
      rw [hq]
      rfl

theorem exists_of_choice {ps : List (Parser α)} {v : α}
    (h : choice ps here stop = some (.success c v)) :
    ∃ p ∈ ps, p here stop = some (.success c v) := by
  induction ps with
  | nil => exact absurd h failAt_ne_success
  | cons p ps ih =>
    by_cases hps : ps = []
    · subst hps
      exact ⟨p, List.mem_singleton_self p, h⟩
    rw [choice_cons p hps] at h
    rcases orElse_eq_success.1 h with hp | ⟨-, hq⟩
    · exact ⟨p, List.mem_cons_self, hp⟩
    · obtain ⟨q, hmem, hq⟩ := ih hq
      exact ⟨q, List.mem_cons_of_mem p hmem, hq⟩

theorem exists_of_taggedChoice {ps : List (Parser α)} {tag : Nat → α → β} {w : β}
    (h : taggedChoice tag ps here stop = some (.success c w)) :
    ∃ p ∈ ps, ∃ v, p here stop = some (.success c v) := by
  obtain ⟨q, hmem, hq⟩ := exists_of_choice h
  obtain ⟨⟨p, i⟩, hp, rfl⟩ := List.mem_map.1 hmem
  obtain ⟨v, hv, -⟩ := map_eq_success.1 hq
  exact ⟨p, List.fst_mem_of_mem_zipIdx hp, v, hv⟩

/-! ## Sequences -/

theorem sequenceTail_cons_eq_success {sep : Parser σ} {q : Part α} {qs : List (Part α)}
    {vs : List α} : sequenceTail sep (q :: qs) here stop = some (.success c vs) ↔
      ∃ mid u next v ws, sep here stop = some (.success mid u) ∧
        q.parser mid stop = some (.success next v) ∧
        sequenceTail sep qs next stop = some (.success c ws) ∧ vs = q.kind.collect v ws := by
  rw [sequenceTail]
  simp only [bind_eq_success, map_eq_success]
  constructor
  · rintro ⟨mid, u, hsep, next, v, hq, ws, hqs, rfl⟩
    exact ⟨mid, u, next, v, ws, hsep, hq, hqs, rfl⟩
  · rintro ⟨mid, u, next, v, ws, hsep, hq, hqs, rfl⟩
    exact ⟨mid, u, hsep, next, v, hq, ws, hqs, rfl⟩

theorem sequence_cons_eq_success {sep : Parser σ} {q : Part α} {qs : List (Part α)}
    {vs : List α} : sequence sep (q :: qs) here stop = some (.success c vs) ↔
      ∃ next v ws, q.parser here stop = some (.success next v) ∧
        sequenceTail sep qs next stop = some (.success c ws) ∧ vs = q.kind.collect v ws := by
  rw [sequence]
  simp only [bind_eq_success, map_eq_success]
  constructor
  · rintro ⟨next, v, hq, ws, hqs, rfl⟩
    exact ⟨next, v, ws, hq, hqs, rfl⟩
  · rintro ⟨next, v, ws, hq, hqs, rfl⟩
    exact ⟨next, v, hq, ws, hqs, rfl⟩

end Parser

/-! ## Repetitions -/

namespace Repetition

theorem close_eq_success {r : Repetition α} {count : Nat} {u : Unit} :
    r.close count here = .success c u ↔ c = here ∧ r.bounds.min ≤ count := by
  unfold close
  by_cases hmin : count < r.bounds.min
  · rw [if_pos hmin]
    exact iff_of_false nofun fun h => Nat.not_lt.2 h.2 hmin
  · rw [if_neg hmin]
    refine ⟨fun h => ?_, fun h => ?_⟩
    · cases h
      exact ⟨rfl, Nat.le_of_not_lt hmin⟩
    · rw [h.1]

theorem collect_eq_success {r : Repetition α} (hr : r.Forward stop) {into : Container α σ}
    {s : σ} : r.collect into here stop = some (.success c s) ↔
      ∃ vs, Run r stop 0 here vs c ∧ r.bounds.min ≤ vs.length ∧ s = into.extend into.empty vs := by
  rw [collect_eq_some_iff hr]
  constructor
  · rintro ⟨vs, last, hrun, h⟩
    rcases hclose : r.close vs.length last with ⟨d, code | u⟩
    · rw [hclose] at h
      cases h
    · rw [hclose] at h
      cases h
      obtain ⟨rfl, hmin⟩ := close_eq_success.1 hclose
      exact ⟨vs, hrun, hmin, rfl⟩
  · rintro ⟨vs, hrun, hmin, rfl⟩
    have hclose : r.close vs.length c = .success c () := close_eq_success.2 ⟨rfl, hmin⟩
    exact ⟨vs, c, hrun, by rw [hclose]; rfl⟩

end Repetition

end PegParsing
