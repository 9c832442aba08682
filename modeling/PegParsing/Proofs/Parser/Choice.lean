import PegParsing.Parser.Choice

/-!
# Which alternative a choice selects

`Selects` says of an alternative, by its number, that the answer of the choice is its answer: it is
the first that does not fail, or all fail and it is the first of those that came furthest. There is
just one such alternative, and the choice has its answer (`choice_eq_iff`). A choice that tells its
alternatives apart tags the value with the number of the same alternative (`taggedChoice_eq_iff`).

Of three answers it does not matter which two are compared first (`orElse_assoc`). Hence alternatives
may be put into groups (`choice_append`).
-/

namespace PegParsing

variable {α β : Type} {here stop c : Cursor}

/-! ## Two results -/

namespace Parsed

/-- What is left of a failure in front of the result of the other alternatives. -/
def before (first rest : Parsed α) : Parsed α := if rest.isOk then rest else first.furthest rest

theorem before_failure (r : Parsed α) (code : ErrorCode) :
    r.before (.failure c code) = r.furthest (.failure c code) := rfl

theorem furthest_failure (c d : Cursor) (code other : ErrorCode) :
    (failure c code : Parsed α).furthest (failure d other) =
      if c.offset < d.offset then failure d other else failure c code := rfl

theorem furthest_assoc (r s t : Parsed α) : (r.furthest s).furthest t = r.furthest (s.furthest t) := by
  unfold furthest
  by_cases h : r.cursor.offset < s.cursor.offset
  · by_cases h' : s.cursor.offset < t.cursor.offset
    · rw [if_pos h, if_pos h', if_pos (Nat.lt_trans h h')]
    · rw [if_pos h, if_neg h', if_pos h]
  · by_cases h' : s.cursor.offset < t.cursor.offset
    · rw [if_neg h, if_pos h']
    · rw [if_neg h, if_neg h', if_neg h, if_neg (by omega)]

/-- The further of two failures is a failure. -/
theorem exists_failure_furthest (c d : Cursor) (code other : ErrorCode) :
    ∃ e last, (failure c code : Parsed α).furthest (failure d other) = failure e last := by
  rw [furthest_failure]
  split
  · exact ⟨d, other, rfl⟩
  · exact ⟨c, code, rfl⟩

theorem before_before_failure (r : Parsed α) (code : ErrorCode) (t : Parsed α) :
    r.before ((failure c code).before t) = (r.furthest (failure c code)).before t := by
  rcases t with ⟨d, other | v⟩
  · obtain ⟨e, last, hlast⟩ := exists_failure_furthest (α := α) c d code other
    change r.before ((failure c code).furthest (failure d other)) = _
    rw [hlast, before_failure, ← hlast, ← furthest_assoc]
    rfl
  · rfl

end Parsed

namespace Parser

/-! ## Two alternatives -/

/-- The parser comes to an end, with a failure. -/
def Fails (p : Parser α) (here stop : Cursor) : Prop := ∃ c code, p here stop = some (.failure c code)

theorem fails_congr {p q : Parser α} (h : p here stop = q here stop) :
    p.Fails here stop ↔ q.Fails here stop := by
  unfold Fails
  rw [h]

theorem map_eq_failure {p : Parser α} {f : α → β} {code : ErrorCode} :
    p.map f here stop = some (.failure c code) ↔ p here stop = some (.failure c code) := by
  unfold map
  rcases p here stop with _ | ⟨d, other | v⟩
  · exact iff_of_false nofun nofun
  · simp [Parsed.map, Parsed.failure, Except.map]
  · exact iff_of_false nofun nofun

theorem fails_map {p : Parser α} {f : α → β} : (p.map f).Fails here stop ↔ p.Fails here stop :=
  exists_congr fun _ => exists_congr fun _ => map_eq_failure

theorem orElse_of_failure {p : Parser α} {code : ErrorCode} (h : p here stop = some (.failure c code))
    (q : Parser α) : orElse p q here stop = (q here stop).map (.before (.failure c code)) := by
  unfold orElse
  rw [h]
  change Option.map _ (q here stop) = _
  congr 1
  funext ⟨d, o⟩
  cases o <;> rfl

/-- Behind an alternative that succeeds or does not finish, nothing is run. -/
theorem orElse_of_not_fails {p : Parser α} (h : ¬ p.Fails here stop) (q : Parser α) :
    orElse p q here stop = p here stop := by
  unfold orElse
  rcases hp : p here stop with _ | ⟨c, code | v⟩
  · rfl
  · exact absurd ⟨c, code, hp⟩ h
  · rfl

/-- A failure in front of an alternative that does not fail leaves no trace. -/
theorem map_before_of_not_fails {q : Parser α} (h : ¬ q.Fails here stop) (r : Parsed α) :
    (q here stop).map r.before = q here stop := by
  rcases hq : q here stop with _ | ⟨d, other | v⟩
  · rfl
  · exact absurd ⟨d, other, hq⟩ h
  · rfl

/-- Alternatives may be grouped either way. -/
theorem orElse_assoc (p q s : Parser α) : orElse (orElse p q) s = orElse p (orElse q s) := by
  funext here stop
  by_cases hp : p.Fails here stop
  · obtain ⟨c, code, hp⟩ := hp
    have hpq := orElse_of_failure hp q
    rw [orElse_of_failure hp]
    by_cases hq : q.Fails here stop
    · obtain ⟨d, other, hq⟩ := hq
      obtain ⟨e, last, hlast⟩ := Parsed.exists_failure_furthest (α := α) c d code other
      rw [hq, Option.map_some, Parsed.before_failure, hlast] at hpq
      rw [orElse_of_failure hpq, orElse_of_failure hq, Option.map_map]
      congr 1
      funext t
      rw [Function.comp_apply, Parsed.before_before_failure, hlast]
    · rw [map_before_of_not_fails hq] at hpq
      rw [orElse_of_not_fails hq, map_before_of_not_fails hq, ← hpq]
      exact orElse_of_not_fails (mt (fails_congr hpq).1 hq) s
  · have hpq := orElse_of_not_fails hp q
    rw [orElse_of_not_fails hp, ← hpq]
    exact orElse_of_not_fails (mt (fails_congr hpq).1 hp) s

/-! ## The alternative that is selected -/

/-- The choice among `ps` has the answer of its alternative `i`, counted from 0. -/
inductive Selects (ps : List (Parser α)) (here stop : Cursor) (i : Nat) : Option (Parsed α) → Prop
  /-- It is the first that does not fail. -/
  | first {p : Parser α} : ps[i]? = some p → ¬ p.Fails here stop →
      (∀ j q, ps[j]? = some q → j < i → q.Fails here stop) → Selects ps here stop i (p here stop)
  /-- All fail, those before it less far, those behind it no further. -/
  | furthest {p : Parser α} {c : Cursor} {code : ErrorCode} : ps[i]? = some p →
      p here stop = some (.failure c code) →
      (∀ j q, ps[j]? = some q → ∃ d other, q here stop = some (.failure d other) ∧
        d.offset ≤ c.offset ∧ (j < i → d.offset < c.offset)) →
      Selects ps here stop i (some (.failure c code))

theorem forall_getElem?_cons {p : Parser α} {ps : List (Parser α)} {P : Nat → Parser α → Prop} :
    (∀ j q, (p :: ps)[j]? = some q → P j q) ↔
      P 0 p ∧ ∀ j q, ps[j]? = some q → P (j + 1) q := by
  refine ⟨fun h => ⟨h 0 p rfl, fun j q => h (j + 1) q⟩, fun ⟨hp, hps⟩ j q hq => ?_⟩
  cases j with
  | zero => exact Option.some.inj hq ▸ hp
  | succ j => exact hps j q hq

namespace Selects

variable {ps : List (Parser α)} {p : Parser α} {i j : Nat} {o o' : Option (Parsed α)}

/-- No two alternatives are selected. -/
theorem unique (h : Selects ps here stop i o) (h' : Selects ps here stop j o') : i = j ∧ o = o' := by
  cases h with
  | @first p hp hnot hbefore =>
    cases h' with
    | @first q hq hnot' hbefore' =>
      obtain hlt | rfl | hlt := Nat.lt_trichotomy i j
      · exact absurd (hbefore' i p hp hlt) hnot
      · obtain rfl := Option.some.inj (hp.symm.trans hq)
        exact ⟨rfl, rfl⟩
      · exact absurd (hbefore j q hq hlt) hnot'
    | furthest _ _ hall =>
      obtain ⟨d, other, hd, -⟩ := hall i p hp
      exact absurd ⟨d, other, hd⟩ hnot
  | @furthest p c code hp hc hall =>
    cases h' with
    | @first q hq hnot _ =>
      obtain ⟨d, other, hd, -⟩ := hall j q hq
      exact absurd ⟨d, other, hd⟩ hnot
    | @furthest q d other hq hd hall' =>
      obtain ⟨_, _, hd', hle, hlt⟩ := hall j q hq
      obtain ⟨_, _, hc', hle', hlt'⟩ := hall' i p hp
      cases hd.symm.trans hd'
      cases hc.symm.trans hc'
      -- of two that are both furthest, neither stands before the other
      obtain rfl : i = j := by omega
      obtain rfl := Option.some.inj (hp.symm.trans hq)
      exact ⟨rfl, hc.symm.trans hd⟩

theorem cons_of_not_fails (hp : ¬ p.Fails here stop) (ps : List (Parser α)) :
    Selects (p :: ps) here stop 0 (p here stop) :=
  .first rfl hp fun j _ _ hlt => absurd hlt (Nat.not_lt_zero j)

theorem singleton (p : Parser α) : Selects [p] here stop 0 (p here stop) := by
  by_cases hp : p.Fails here stop
  · obtain ⟨c, code, hc⟩ := hp
    rw [hc]
    exact .furthest rfl hc (forall_getElem?_cons.2
      ⟨⟨c, code, hc, Nat.le_refl _, fun hlt => absurd hlt (Nat.lt_irrefl 0)⟩, nofun⟩)
  · exact cons_of_not_fails hp []

/-- In front of other alternatives, one that fails is selected if they fail too and came no further. -/
theorem cons_of_failure {code : ErrorCode} (hp : p here stop = some (.failure c code))
    (h : Selects ps here stop i o) :
    ∃ j, Selects (p :: ps) here stop j (o.map (.before (.failure c code))) := by
  cases h with
  | @first q hq hnot hbefore =>
    rw [map_before_of_not_fails hnot]
    refine ⟨i + 1, .first hq hnot (forall_getElem?_cons.2 ⟨fun _ => ⟨c, code, hp⟩, ?_⟩)⟩
    exact fun j s hs hlt => hbefore j s hs (Nat.lt_of_succ_lt_succ hlt)
  | @furthest q d other hq hd hall =>
    rw [Option.map_some, Parsed.before_failure, Parsed.furthest_failure]
    by_cases hlt : c.offset < d.offset
    · rw [if_pos hlt]
      refine ⟨i + 1, .furthest hq hd (forall_getElem?_cons.2
        ⟨⟨c, code, hp, Nat.le_of_lt hlt, fun _ => hlt⟩, fun j s hs => ?_⟩)⟩
      obtain ⟨e, last, he, hle, hbefore⟩ := hall j s hs
      exact ⟨e, last, he, hle, fun hj => hbefore (Nat.lt_of_succ_lt_succ hj)⟩
    · rw [if_neg hlt]
      refine ⟨0, .furthest rfl hp (forall_getElem?_cons.2
        ⟨⟨c, code, hp, Nat.le_refl _, fun hj => absurd hj (Nat.lt_irrefl 0)⟩, fun j s hs => ?_⟩)⟩
      obtain ⟨e, last, he, hle, -⟩ := hall j s hs
      exact ⟨e, last, he, by omega, fun hj => absurd hj (Nat.not_lt_zero _)⟩

/-- The values of the alternatives do not matter to which is selected. -/
theorem zipIdx_map (h : Selects ps here stop i o) (tag : Nat → α → β) :
    Selects (ps.zipIdx.map fun (p, j) => Parser.map (tag j) p) here stop i
      (o.map (Parsed.map (tag i))) := by
  have hget : ∀ j, (ps.zipIdx.map fun (p, j) => Parser.map (tag j) p)[j]? =
      ps[j]?.map (Parser.map (tag j)) := by
    intro j
    simp only [List.getElem?_map, List.getElem?_zipIdx, Option.map_map, Function.comp_def,
      Nat.zero_add]
  cases h with
  | @first p hp hnot hbefore =>
    refine .first (by rw [hget, hp]; rfl) (mt fails_map.1 hnot) fun j q hq hlt => ?_
    rw [hget] at hq
    obtain ⟨s, hs, rfl⟩ := Option.map_eq_some_iff.1 hq
    exact fails_map.2 (hbefore j s hs hlt)
  | @furthest p c code hp hc hall =>
    refine .furthest (by rw [hget, hp]; rfl) (map_eq_failure.2 hc) fun j q hq => ?_
    rw [hget] at hq
    obtain ⟨s, hs, rfl⟩ := Option.map_eq_some_iff.1 hq
    obtain ⟨d, other, hd, hle, hlt⟩ := hall j s hs
    exact ⟨d, other, map_eq_failure.2 hd, hle, hlt⟩

end Selects

/-! ## Choice -/

/-- By induction on the alternatives: each that fails leaves the choice to those behind it. -/
theorem exists_selects_choice {ps : List (Parser α)} (hne : ps ≠ []) :
    ∃ i, Selects ps here stop i (choice ps here stop) := by
  induction ps with
  | nil => exact absurd rfl hne
  | cons p ps ih =>
    by_cases hnil : ps = []
    · rw [hnil]
      exact ⟨0, .singleton p⟩
    rw [choice_cons p hnil]
    by_cases hp : p.Fails here stop
    · obtain ⟨c, code, hp⟩ := hp
      obtain ⟨i, hi⟩ := ih hnil
      rw [orElse_of_failure hp]
      exact hi.cons_of_failure hp
    · rw [orElse_of_not_fails hp]
      exact ⟨0, .cons_of_not_fails hp ps⟩

/-- The answer of a choice is that of the alternative that it selects. -/
theorem choice_eq_iff {ps : List (Parser α)} (hne : ps ≠ []) {o : Option (Parsed α)} :
    choice ps here stop = o ↔ ∃ i, Selects ps here stop i o := by
  obtain ⟨i, hi⟩ := exists_selects_choice hne
  constructor
  · rintro rfl
    exact ⟨i, hi⟩
  · rintro ⟨j, hj⟩
    exact (hi.unique hj).2

theorem map_choice_eq_iff {ps : List (Parser α)} (hne : ps ≠ []) {f : α → β}
    {o : Option (Parsed β)} : (choice ps).map f here stop = o ↔
      ∃ i s, Selects ps here stop i s ∧ o = s.map (Parsed.map f) := by
  constructor
  · rintro rfl
    obtain ⟨i, hi⟩ := exists_selects_choice hne
    exact ⟨i, _, hi, rfl⟩
  · rintro ⟨i, s, hi, rfl⟩
    rw [← (choice_eq_iff hne).2 ⟨i, hi⟩]
    rfl

/-- A choice whose alternatives are converted one by one selects as they do before. -/
theorem taggedChoice_eq_iff {ps : List (Parser α)} (hne : ps ≠ []) {tag : Nat → α → β}
    {o : Option (Parsed β)} : taggedChoice tag ps here stop = o ↔
      ∃ i s, Selects ps here stop i s ∧ o = s.map (Parsed.map (tag i)) := by
  have hne' : (ps.zipIdx.map fun (p, j) => Parser.map (tag j) p) ≠ [] := by simpa using hne
  constructor
  · rintro rfl
    obtain ⟨i, hi⟩ := exists_selects_choice hne
    exact ⟨i, _, hi, (choice_eq_iff hne').2 ⟨i, hi.zipIdx_map tag⟩⟩
  · rintro ⟨j, s, hj, rfl⟩
    exact (choice_eq_iff hne').2 ⟨j, hj.zipIdx_map tag⟩

/-- A group of alternatives counts as one. -/
theorem choice_append {ps qs : List (Parser α)} (hps : ps ≠ []) (hqs : qs ≠ []) :
    choice (ps ++ qs) = orElse (choice ps) (choice qs) := by
  induction ps with
  | nil => exact absurd rfl hps
  | cons p ps ih =>
    rw [List.cons_append, choice_cons p (List.append_ne_nil_of_right_ne_nil ps hqs)]
    by_cases hnil : ps = []
    · rw [hnil, List.nil_append, choice_singleton]
    · rw [ih hnil, choice_cons p hnil, orElse_assoc]

end Parser

end PegParsing
