import PegParsing.Proofs.Parser.Choice
import PegParsing.Proofs.Parser.Sequence

/-!
# What distributes over a choice

A parser in front of a choice may be put in front of each alternative (`bind_choice`), and a function
on the value of a choice may be put on the value of each (`map_choice`). Hence a sequence that ends in
a choice is a choice between sequences (`sequence_choice`): if what stands in front of the choice
fails, all of them have that one failure, and of several that are equal the first is reported.

Lookahead distributes too. Where a choice is rejected each alternative is, one behind the other
(`sequenceTail_reject`), and a choice that is looked for is a choice between lookaheads
(`onlyWhere_choice`). The parser behind a lookahead may be taken out of it (`onlyWhere_eq_bind`,
`exceptWhere_eq_bind`).
-/

namespace PegParsing

variable {α β γ σ : Type} {here stop c : Cursor}

theorem Parsed.map_before_failure (f : α → β) (c : Cursor) (code : ErrorCode) (r : Parsed α) :
    ((Parsed.failure c code).before r).map f = (Parsed.failure c code).before (r.map f) := by
  rcases r with ⟨d, other | v⟩
  · change ((Parsed.failure c code).furthest (.failure d other)).map f =
      (Parsed.failure c code).furthest (.failure d other)
    rw [furthest_failure, furthest_failure]
    split <;> rfl
  · rfl

namespace Parser

/-! ## In front of a choice, and behind -/

/-- A failure counts once, however many alternatives have it. -/
theorem orElse_of_failures {p q : Parser α} {code : ErrorCode}
    (hp : p here stop = some (.failure c code)) (hq : q here stop = some (.failure c code)) :
    orElse p q here stop = some (.failure c code) := by
  rw [orElse_of_failure hp, hq, Option.map_some, Parsed.before_failure, Parsed.furthest_failure,
    if_neg (Nat.lt_irrefl _)]

theorem bind_orElse (p : Parser α) (f g : α → Parser β) :
    (p.bind fun v => orElse (f v) (g v)) = orElse (p.bind f) (p.bind g) := by
  funext here stop
  rcases hp : p here stop with _ | ⟨c, code | v⟩
  · have hf : ¬ (p.bind f).Fails here stop := by
      rintro ⟨c, code, hc⟩
      rw [bind_of_none hp] at hc
      cases hc
    rw [bind_of_none hp, orElse_of_not_fails hf, bind_of_none hp]
  · rw [bind_of_failure hp, orElse_of_failures (bind_of_failure hp f) (bind_of_failure hp g)]
  · rw [bind_of_success hp]
    unfold orElse
    rw [bind_of_success hp, bind_of_success hp]

theorem map_orElse (f : α → β) (p q : Parser α) :
    (orElse p q).map f = orElse (p.map f) (q.map f) := by
  funext here stop
  by_cases hp : p.Fails here stop
  · obtain ⟨c, code, hp⟩ := hp
    rw [orElse_of_failure (map_eq_failure.2 hp)]
    unfold map
    rw [orElse_of_failure hp, Option.map_map, Option.map_map]
    congr 1
    funext r
    exact Parsed.map_before_failure f c code r
  · rw [orElse_of_not_fails (mt fails_map.1 hp)]
    unfold map
    rw [orElse_of_not_fails hp]

theorem bind_choice {δ : Type} (p : Parser α) (f : α → δ → Parser β) {xs : List δ} (hne : xs ≠ []) :
    (p.bind fun v => choice (xs.map (f v))) = choice (xs.map fun x => p.bind fun v => f v x) := by
  induction xs with
  | nil => exact absurd rfl hne
  | cons x xs ih =>
    by_cases hnil : xs = []
    · rw [hnil]
      rfl
    have hmap : ∀ g : δ → Parser β, xs.map g ≠ [] := fun g => mt List.map_eq_nil_iff.1 hnil
    simp only [List.map_cons, choice_cons _ (hmap _)]
    rw [bind_orElse, ih hnil]

theorem map_choice (f : α → β) {ps : List (Parser α)} (hne : ps ≠ []) :
    (choice ps).map f = choice (ps.map fun p => p.map f) := by
  induction ps with
  | nil => exact absurd rfl hne
  | cons p ps ih =>
    by_cases hnil : ps = []
    · rw [hnil]
      rfl
    rw [choice_cons p hnil, map_orElse, ih hnil, List.map_cons,
      choice_cons _ (mt List.map_eq_nil_iff.1 hnil)]

/-! ## Sequences that end in a choice -/

theorem sequence_concat (sep : Parser σ) {qs : List (Part α)} (hqs : qs ≠ []) (q : Part α) :
    sequence sep (qs ++ [q]) = (sequence sep qs).bind fun vs => sep.bind fun _ =>
      q.parser.map fun v => vs ++ q.kind.collect v [] := by
  rw [sequence_append sep hqs (List.cons_ne_nil q [])]
  simp only [both, sequence, sequenceTail, map_eq_bind, bind_assoc, succeed_bind]

theorem sequence_choice (sep : Parser σ) {qs : List (Part α)} (hqs : qs ≠ []) (k : Kind)
    {ps : List (Parser α)} (hps : ps ≠ []) :
    sequence sep (qs ++ [⟨k, choice ps⟩]) =
      choice (ps.map fun p => sequence sep (qs ++ [⟨k, p⟩])) := by
  -- the choice comes out of the map, then out of the separator, then out of the parts before it
  simp only [sequence_concat sep hqs, map_choice _ hps]
  simp only [bind_choice sep (fun _ p => Parser.map _ p) hps]
  exact bind_choice _ _ hps

/-! ## Lookahead -/

section Lookahead

variable {must non : Parser γ} {u : γ} {code : ErrorCode}

theorem onlyWhere_congr {must' : Parser γ} (h : must here stop = must' here stop) (p : Parser α) :
    onlyWhere must p here stop = onlyWhere must' p here stop := by
  unfold onlyWhere
  rw [h]

theorem onlyWhere_of_success (h : must here stop = some (.success c u)) (p : Parser α) :
    onlyWhere must p here stop = p here stop := by
  unfold onlyWhere
  rw [h]
  rfl

theorem onlyWhere_of_failure (h : must here stop = some (.failure c code)) (p : Parser α) :
    onlyWhere must p here stop = some (.failure c .symbolNotFound) := by
  unfold onlyWhere
  rw [h]
  rfl

theorem onlyWhere_of_none (h : must here stop = none) (p : Parser α) :
    onlyWhere must p here stop = none := by
  unfold onlyWhere
  rw [h]
  rfl

theorem exceptWhere_congr {non' : Parser γ} (h : non here stop = non' here stop) (p : Parser α) :
    exceptWhere non p here stop = exceptWhere non' p here stop := by
  unfold exceptWhere
  rw [h]

theorem exceptWhere_of_success (h : non here stop = some (.success c u)) (p : Parser α) :
    exceptWhere non p here stop = some (.failure here .symbolNotExpected) := by
  unfold exceptWhere
  rw [h]
  rfl

theorem exceptWhere_of_failure (h : non here stop = some (.failure c code)) (p : Parser α) :
    exceptWhere non p here stop = p here stop := by
  unfold exceptWhere
  rw [h]
  rfl

theorem exceptWhere_of_none (h : non here stop = none) (p : Parser α) :
    exceptWhere non p here stop = none := by
  unfold exceptWhere
  rw [h]
  rfl

end Lookahead

theorem onlyWhere_bind (must : Parser γ) (p : Parser α) (f : α → Parser β) :
    (onlyWhere must p).bind f = onlyWhere must (p.bind f) := by
  funext here stop
  rcases h : must here stop with _ | ⟨c, code | u⟩
  · rw [onlyWhere_of_none h, bind_of_none (onlyWhere_of_none h p)]
  · rw [onlyWhere_of_failure h, bind_of_failure (onlyWhere_of_failure h p)]
  · rw [onlyWhere_of_success h]
    unfold bind
    rw [onlyWhere_of_success h]

theorem exceptWhere_bind (non : Parser γ) (p : Parser α) (f : α → Parser β) :
    (exceptWhere non p).bind f = exceptWhere non (p.bind f) := by
  funext here stop
  rcases h : non here stop with _ | ⟨c, code | u⟩
  · rw [exceptWhere_of_none h, bind_of_none (exceptWhere_of_none h p)]
  · rw [exceptWhere_of_failure h]
    unfold bind
    rw [exceptWhere_of_failure h]
  · rw [exceptWhere_of_success h, bind_of_failure (exceptWhere_of_success h p)]

theorem onlyWhere_eq_bind (must : Parser γ) (v : α) (p : Parser β) :
    onlyWhere must p = (onlyWhere must (succeed v)).bind fun _ => p := by
  rw [onlyWhere_bind, succeed_bind]

theorem exceptWhere_eq_bind (non : Parser γ) (v : α) (p : Parser β) :
    exceptWhere non p = (exceptWhere non (succeed v)).bind fun _ => p := by
  rw [exceptWhere_bind, succeed_bind]

theorem fails_onlyWhere_succeed {must : Parser γ} {v : α} :
    (onlyWhere must (succeed v)).Fails here stop ↔ must.Fails here stop := by
  constructor
  · rintro ⟨c, code, h⟩
    rcases hm : must here stop with _ | ⟨d, other | u⟩
    · rw [onlyWhere_of_none hm] at h
      cases h
    · exact ⟨d, other, hm⟩
    · rw [onlyWhere_of_success hm] at h
      cases h
  · rintro ⟨c, code, h⟩
    exact ⟨c, _, onlyWhere_of_failure h _⟩

/-- Where both alternatives fail, both sides fail at the place that the further one came to. -/
theorem onlyWhere_orElse (p q : Parser γ) (v : α) : onlyWhere (orElse p q) (succeed v) =
    orElse (onlyWhere p (succeed v)) (onlyWhere q (succeed v)) := by
  funext here stop
  by_cases hp : p.Fails here stop
  · obtain ⟨c, code, hp⟩ := hp
    have hpq := orElse_of_failure hp q
    rw [orElse_of_failure (onlyWhere_of_failure hp (succeed v))]
    by_cases hq : q.Fails here stop
    · obtain ⟨d, other, hq⟩ := hq
      rw [hq, Option.map_some, Parsed.before_failure, Parsed.furthest_failure] at hpq
      rw [onlyWhere_of_failure hq, Option.map_some, Parsed.before_failure, Parsed.furthest_failure]
      split
      · rename_i hlt
        rw [if_pos hlt] at hpq
        exact onlyWhere_of_failure hpq _
      · rename_i hle
        rw [if_neg hle] at hpq
        exact onlyWhere_of_failure hpq _
    · rw [map_before_of_not_fails hq] at hpq
      rw [map_before_of_not_fails (mt fails_onlyWhere_succeed.1 hq)]
      exact onlyWhere_congr hpq _
  · rw [orElse_of_not_fails (mt fails_onlyWhere_succeed.1 hp)]
    exact onlyWhere_congr (orElse_of_not_fails hp q) _

theorem onlyWhere_choice {ps : List (Parser γ)} (hne : ps ≠ []) (v : α) :
    onlyWhere (choice ps) (succeed v) = choice (ps.map fun p => onlyWhere p (succeed v)) := by
  induction ps with
  | nil => exact absurd rfl hne
  | cons p ps ih =>
    by_cases hnil : ps = []
    · rw [hnil]
      rfl
    rw [choice_cons p hnil, onlyWhere_orElse, ih hnil, List.map_cons,
      choice_cons _ (mt List.map_eq_nil_iff.1 hnil)]

theorem exceptWhere_orElse (p q : Parser γ) (s : Parser α) :
    exceptWhere (orElse p q) s = exceptWhere p (exceptWhere q s) := by
  funext here stop
  by_cases hp : p.Fails here stop
  · obtain ⟨c, code, hp⟩ := hp
    have hpq := orElse_of_failure hp q
    rw [exceptWhere_of_failure hp]
    by_cases hq : q.Fails here stop
    · obtain ⟨d, other, hq⟩ := hq
      obtain ⟨e, last, hlast⟩ := Parsed.exists_failure_furthest (α := γ) c d code other
      rw [hq, Option.map_some, Parsed.before_failure, hlast] at hpq
      rw [exceptWhere_of_failure hpq, exceptWhere_of_failure hq]
    · rw [map_before_of_not_fails hq] at hpq
      exact exceptWhere_congr hpq s
  · rw [exceptWhere_congr (orElse_of_not_fails hp q)]
    rcases h : p here stop with _ | ⟨c, code | u⟩
    · rw [exceptWhere_of_none h, exceptWhere_of_none h]
    · exact absurd ⟨c, code, h⟩ hp
    · rw [exceptWhere_of_success h, exceptWhere_of_success h]

/-- Among no alternatives there is none to be rejected. -/
theorem exceptWhere_choice_cons (p : Parser γ) (ps : List (Parser γ)) (s : Parser α) :
    exceptWhere (choice (p :: ps)) s = exceptWhere p (exceptWhere (choice ps) s) := by
  by_cases hnil : ps = []
  · rw [hnil]
    rfl
  · rw [choice_cons p hnil, exceptWhere_orElse]

theorem sequenceTail_reject (ps : List (Parser γ)) (u : σ) (v : α) :
    sequenceTail (succeed u) (ps.map fun p => ⟨.skip, exceptWhere p (succeed v)⟩) =
      exceptWhere (choice ps) (succeed []) := by
  induction ps with
  | nil => rfl
  | cons p ps ih =>
    rw [List.map_cons, sequenceTail, succeed_bind, ih, exceptWhere_bind, succeed_bind,
      map_skip_collect, exceptWhere_choice_cons]

end Parser

end PegParsing
