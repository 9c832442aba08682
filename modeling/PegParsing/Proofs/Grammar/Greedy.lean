import PegParsing.Proofs.Grammar.Gathering
import PegParsing.Proofs.Parser.Outcomes

/-!
# Repetition as a greedy run

`Greedy` says which items a repetition accepts without a loop. They are read one behind the other, the
first of them where the repetition begins and every other one behind a separator, and they are the
fewest behind which no more are accepted: there are as many as the upper bound allows, or the next
round fails, or there are enough and the last of them moved nothing.

The loop finds just these items (`Run.greedy`, `Greedy.run`), so that what a repetition answers is told
by them: too few items, or their values in order (`greedy_run`). If no item is empty they are as many
as can be had within the upper bound (`greedy_iff_maximal`).
-/

namespace PegParsing

open Cursor PegParsing.Parser

namespace Repetition

variable {α σ : Type}

/-- Items with the places where they end, the first of them read at `here`, behind `count` others, and
every other one where a separator ends that begins where the item before it ended. -/
inductive Items (r : Repetition α) (stop : Cursor) : Nat → Cursor → List (α × Cursor) → Prop
  | nil {count here} : Items r stop count here []
  | cons {count here next last u v es} :
      r.separatorAt count here stop = some (.success next u) →
      r.item next stop = some (.success last v) → Items r stop (count + 1) last es →
      Items r stop count here ((v, last) :: es)

/-- Where the last of the items ends. -/
def endOf (here : Cursor) : List (α × Cursor) → Cursor
  | [] => here
  | (_, last) :: es => endOf last es

/-- The last of the items ends where the one before it did. -/
def Idle (here : Cursor) (es : List (α × Cursor)) : Prop :=
  ∃ before v last, es = before ++ [(v, last)] ∧ last.offset = (endOf here before).offset

/-- Behind these items no other is accepted. -/
def Halts (r : Repetition α) (stop : Cursor) (count : Nat) (here : Cursor)
    (es : List (α × Cursor)) : Prop :=
  r.bounds.max = some (count + es.length) ∨
    (r.round (count + es.length)).Fails (endOf here es) stop ∨
    max r.bounds.min 1 ≤ count + es.length ∧ Idle here es

/-- The fewest items behind which no other is accepted. -/
structure Greedy (r : Repetition α) (stop : Cursor) (count : Nat) (here : Cursor)
    (es : List (α × Cursor)) : Prop where
  items : r.Items stop count here es
  halts : r.Halts stop count here es
  least : ∀ j < es.length, ¬ r.Halts stop count here (es.take j)

/-- What is answered behind the items. -/
def answer (r : Repetition α) (here : Cursor) (es : List (α × Cursor)) : Parsed (List α) :=
  if es.length < r.bounds.min then .failure (endOf here es) .tooFew
  else .success (endOf here es) (es.map Prod.fst)

variable {r : Repetition α} {stop here mid last : Cursor} {count : Nat} {v : α} {vs : List α}
  {es es' : List (α × Cursor)}

/-! ## The end of a run -/

theorem items_cons : r.Items stop count here ((v, mid) :: es) ↔
    r.round count here stop = some (.success mid v) ∧ r.Items stop (count + 1) mid es := by
  unfold round
  rw [bind_eq_success]
  constructor
  · intro h
    cases h with
    | cons hsep hitem hes => exact ⟨⟨_, _, hsep, hitem⟩, hes⟩
  · rintro ⟨⟨next, u, hsep, hitem⟩, hes⟩
    exact .cons hsep hitem hes

theorem not_idle_nil : ¬ Idle (α := α) here [] := by
  rintro ⟨before, v, last, h, -⟩
  cases before <;> cases h

theorem idle_cons : Idle here ((v, mid) :: es) ↔
    Idle mid es ∨ es = [] ∧ mid.offset = here.offset := by
  constructor
  · rintro ⟨before, w, last, h, hlast⟩
    cases before with
    | nil =>
      cases h
      exact .inr ⟨rfl, hlast⟩
    | cons b before =>
      cases h
      exact .inl ⟨before, w, last, rfl, hlast⟩
  · rintro (⟨before, w, last, rfl, hlast⟩ | ⟨rfl, hmid⟩)
    · exact ⟨(v, mid) :: before, w, last, rfl, hlast⟩
    · exact ⟨[], v, mid, rfl, hmid⟩

theorem halts_nil : r.Halts stop count here [] ↔
    r.bounds.max = some count ∨ (r.round count).Fails here stop := by
  unfold Halts
  simp only [not_idle_nil, and_false, or_false]
  rfl

/-- A run halts where the rest of it does, and behind a first item that moved nothing if there are
enough. -/
theorem halts_cons : r.Halts stop count here ((v, mid) :: es) ↔
    r.Halts stop (count + 1) mid es ∨ es = [] ∧ r.Stalls count here mid := by
  have hlen : count + ((v, mid) :: es).length = count + 1 + es.length := by
    rw [List.length_cons]
    omega
  unfold Halts Stalls
  rw [hlen, idle_cons, and_or_left, or_assoc, or_assoc]
  refine or_congr_right (or_congr_right (or_congr_right ?_))
  constructor
  · rintro ⟨hmin, rfl, hmid⟩
    exact ⟨rfl, hmid, Nat.le_trans (Nat.le_max_left _ _) hmin⟩
  · rintro ⟨rfl, hmid, hmin⟩
    exact ⟨Nat.max_le.2 ⟨hmin, Nat.le_add_left _ _⟩, rfl, hmid⟩

theorem not_halts_nil (hfull : r.bounds.full count = false)
    (hround : r.round count here stop = some (.success mid v)) : ¬ r.Halts stop count here [] := by
  rw [halts_nil]
  rintro (hmax | ⟨c, code, hfail⟩)
  · exact absurd (Bounds.lt_of_not_full hfull hmax) (Nat.lt_irrefl count)
  · cases hround.symm.trans hfail

/-! ## Loop and greedy run -/

namespace Greedy

theorem nil (h : r.Halts stop count here []) : r.Greedy stop count here [] := ⟨.nil, h, nofun⟩

/-- An item that moved nothing, if there are enough with it, is the last. -/
theorem singleton (hfull : r.bounds.full count = false)
    (hround : r.round count here stop = some (.success mid v)) (hst : r.Stalls count here mid) :
    r.Greedy stop count here [(v, mid)] := by
  refine ⟨items_cons.2 ⟨hround, .nil⟩, halts_cons.2 (.inr ⟨rfl, hst⟩), fun j hj => ?_⟩
  obtain rfl : j = 0 := Nat.lt_one_iff.1 hj
  exact not_halts_nil hfull hround

theorem cons (hfull : r.bounds.full count = false)
    (hround : r.round count here stop = some (.success mid v)) (hst : ¬ r.Stalls count here mid)
    (h : r.Greedy stop (count + 1) mid es) : r.Greedy stop count here ((v, mid) :: es) := by
  refine ⟨items_cons.2 ⟨hround, h.items⟩, halts_cons.2 (.inl h.halts), fun j hj => ?_⟩
  cases j with
  | zero => exact not_halts_nil hfull hround
  | succ j =>
    rw [List.take_succ_cons, halts_cons]
    rintro (hhalts | ⟨-, hstalls⟩)
    · exact h.least j (Nat.lt_of_succ_lt_succ hj) hhalts
    · exact hst hstalls

theorem eq_nil_of_stalls (h : r.Greedy stop count here ((v, mid) :: es))
    (hst : r.Stalls count here mid) : es = [] := by
  cases es with
  | nil => rfl
  | cons e es =>
    have hnot := h.least 1 (Nat.succ_lt_succ (Nat.succ_pos _))
    exact absurd (halts_cons.2 (.inr ⟨rfl, hst⟩)) hnot

theorem tail (h : r.Greedy stop count here ((v, mid) :: es)) (hst : ¬ r.Stalls count here mid) :
    r.Greedy stop (count + 1) mid es := by
  refine ⟨(items_cons.1 h.items).2, (halts_cons.1 h.halts).resolve_right fun hes => hst hes.2,
    fun j hj hhalts => ?_⟩
  exact h.least (j + 1) (Nat.succ_lt_succ hj) (halts_cons.2 (.inl hhalts))

theorem not_halts (h : r.Greedy stop count here ((v, mid) :: es)) : ¬ r.Halts stop count here [] :=
  h.least 0 (Nat.succ_pos _)

/-- There is one greedy run. -/
theorem unique (h : r.Greedy stop count here es) (h' : r.Greedy stop count here es') : es = es' := by
  induction es generalizing count here es' with
  | nil =>
    cases es' with
    | nil => rfl
    | cons e es' => exact absurd h.halts h'.not_halts
  | cons e es ih =>
    cases es' with
    | nil => exact absurd h'.halts h.not_halts
    | cons e' es' =>
      obtain ⟨v, mid⟩ := e
      obtain ⟨v', mid'⟩ := e'
      have hround := (items_cons.1 h.items).1
      cases hround.symm.trans (items_cons.1 h'.items).1
      by_cases hst : r.Stalls count here mid
      · rw [h.eq_nil_of_stalls hst, h'.eq_nil_of_stalls hst]
      · rw [ih (h.tail hst) (h'.tail hst)]

theorem run (h : r.Greedy stop count here es) (hcount : ∀ n ∈ r.bounds.max, count ≤ n) :
    r.Run stop count here (es.map Prod.fst) (endOf here es) := by
  induction es generalizing count here with
  | nil =>
    by_cases hfull : r.bounds.full count = true
    · exact .full hfull
    · have hmax : r.bounds.max ≠ some count := mt (Bounds.full_iff hcount).2 hfull
      obtain ⟨c, code, hround⟩ := (halts_nil.1 h.halts).resolve_left hmax
      exact .failed (Bool.eq_false_iff.2 hfull) hround
  | cons e es ih =>
    obtain ⟨v, mid⟩ := e
    have hround := (items_cons.1 h.items).1
    have hmax : r.bounds.max ≠ some count := fun hmax => h.not_halts (halts_nil.2 (.inl hmax))
    have hfull : r.bounds.full count = false :=
      Bool.eq_false_iff.2 (mt (Bounds.full_iff hcount).1 hmax)
    by_cases hst : r.Stalls count here mid
    · obtain rfl := h.eq_nil_of_stalls hst
      exact .stalled hfull hround hst
    · exact .next hfull hround hst
        (ih (h.tail hst) fun n hn => Bounds.lt_of_not_full hfull hn)

end Greedy

theorem Run.greedy (h : r.Run stop count here vs last) (hcount : ∀ n ∈ r.bounds.max, count ≤ n) :
    ∃ es, r.Greedy stop count here es ∧ es.map Prod.fst = vs ∧ endOf here es = last := by
  induction h with
  | full hfull => exact ⟨[], .nil (halts_nil.2 (.inl ((Bounds.full_iff hcount).1 hfull))), rfl, rfl⟩
  | failed hfull hround => exact ⟨[], .nil (halts_nil.2 (.inr ⟨_, _, hround⟩)), rfl, rfl⟩
  | stalled hfull hround hst => exact ⟨_, .singleton hfull hround hst, rfl, rfl⟩
  | next hfull hround hst hrun ih =>
    obtain ⟨es, hes, rfl, rfl⟩ := ih fun n hn => Bounds.lt_of_not_full hfull hn
    exact ⟨_, .cons hfull hround hst hes, rfl, rfl⟩

/-! ## Items that are not empty -/

section Moving

variable (hmoves : ∀ {count c d v}, r.round count c stop = some (.success d v) → c.offset < d.offset)

include hmoves

theorem Items.not_idle (h : r.Items stop count here es) : ¬ Idle here es := by
  induction es generalizing count here with
  | nil => exact not_idle_nil
  | cons e es ih =>
    obtain ⟨hround, hes⟩ := items_cons.1 h
    rw [idle_cons]
    rintro (hidle | ⟨-, hmid⟩)
    · exact ih hes hidle
    · exact absurd hmid (Nat.ne_of_gt (hmoves hround))

/-- Where every round moves forward, the items are as many as can be had within the upper bound. -/
theorem greedy_iff_maximal (hcount : ∀ n ∈ r.bounds.max, count ≤ n) :
    r.Greedy stop count here es ↔
      r.Items stop count here es ∧ (∀ n ∈ r.bounds.max, count + es.length ≤ n) ∧
        (r.bounds.max = some (count + es.length) ∨
          (r.round (count + es.length)).Fails (endOf here es) stop) := by
  constructor
  · intro h
    refine ⟨h.items, fun n hn => ?_, ?_⟩
    · have hlen := (h.run hcount).length_le_max hn (hcount n hn)
      rwa [List.length_map] at hlen
    · exact (or_assoc.2 h.halts).resolve_right fun hidle => h.items.not_idle hmoves hidle.2
  · rintro ⟨hitems, hmax, hend⟩
    induction es generalizing count here with
    | nil => exact .nil (halts_nil.2 hend)
    | cons e es ih =>
      obtain ⟨v, mid⟩ := e
      obtain ⟨hround, hes⟩ := items_cons.1 hitems
      have hlen : count + ((v, mid) :: es).length = count + 1 + es.length := by
        rw [List.length_cons]
        omega
      rw [hlen] at hmax hend
      have hfull : r.bounds.full count = false := by
        refine Bool.eq_false_iff.2 fun hfull => ?_
        have hle := hmax count ((Bounds.full_iff hcount).1 hfull)
        omega
      have hst : ¬ r.Stalls count here mid := fun hst => Nat.ne_of_gt (hmoves hround) hst.1
      exact .cons hfull hround hst
        (ih (fun n hn => Bounds.lt_of_not_full hfull hn) hes hmax hend)

end Moving

/-! ## What a repetition answers -/

theorem close_map_eq_answer (r : Repetition α) (here : Cursor) (es : List (α × Cursor)) :
    ((r.close es.length (endOf here es)).map fun _ => es.map Prod.fst) = r.answer here es := by
  unfold close answer
  split <;> rfl

theorem close_eq_answer (r : Repetition α) (here : Cursor) (es : List (α × Cursor)) :
    r.close es.length (endOf here es) = (r.answer here es).map fun _ => () := by
  unfold close answer
  split <;> rfl

theorem list_eq_accepted (r : Repetition α) (here stop : Cursor) : r.list here stop =
    (r.accepted here stop).map fun (vs, last) => (r.close vs.length last).map fun _ => vs := by
  unfold list
  rw [map_collect_eq_accepted]
  simp only [Container.toList_extend_list]

theorem skip_eq_accepted (r : Repetition α) (here stop : Cursor) : r.skip here stop =
    (r.accepted here stop).map fun (vs, last) => r.close vs.length last := by
  unfold skip collect
  rw [extend_eq_accepted, Option.map_map]
  congr 1
  funext ⟨vs, last⟩
  simp only [Function.comp_apply]
  rcases r.close vs.length last with ⟨c, code | u⟩ <;> rfl

theorem answer_of_accepted (h : r.accepted here stop = some (es.map Prod.fst, endOf here es)) :
    r.list here stop = some (r.answer here es) ∧
      r.skip here stop = some ((r.answer here es).map fun _ => ()) := by
  rw [list_eq_accepted, skip_eq_accepted, h, ← close_eq_answer, ← close_map_eq_answer]
  simp only [Option.map_some, List.length_map, and_self]

theorem greedy_of_accepted (h : r.accepted here stop = some (vs, last)) :
    ∃ es, r.Greedy stop 0 here es ∧ es.map Prod.fst = vs ∧ endOf here es = last :=
  (r.run_of_accepted here stop h).greedy fun n _ => Nat.zero_le n

/-- Before the first item nothing is read; what stands before the others is a separator. -/
theorem separatorAt_eq_success {u : Unit}
    (h : r.separatorAt count here stop = some (.success mid u)) :
    mid = here ∨ r.separator here stop = some (.success mid u) := by
  by_cases hc : count = 0
  · rw [separatorAt, if_pos hc] at h
    exact .inl (succeed_eq_success.1 h).1
  · rw [separatorAt, if_neg hc] at h
    exact .inr h

section Parts

variable (hsep : r.separator.Advances stop) (hitem : r.item.Advances stop)

include hsep in
theorem separatorAt_advances (count : Nat) : (r.separatorAt count).Advances stop := by
  intro here c u h
  rcases separatorAt_eq_success h with rfl | h
  · exact ⟨Nat.le_refl _, Nat.le_max_left _ _⟩
  · exact hsep h

include hsep hitem

theorem advances_of_parts : r.Advances stop := by
  intro count here last v hround
  obtain ⟨next, u, hnext, hlast⟩ := bind_eq_success.1 hround
  have hnextle := separatorAt_advances hsep count hnext
  have hlastle := hitem hlast
  omega

/-- There is a run if both parts finish wherever the repetition can come. -/
theorem exists_run_of_parts
    (hfin : ∀ c, here.offset ≤ c.offset → c.offset ≤ max here.offset stop.offset →
      r.separator.Finishes c stop ∧ r.item.Finishes c stop) :
    ∃ vs last, r.Run stop 0 here vs last := by
  have hr := advances_of_parts hsep hitem
  refine exists_run hr
    (I := fun _ c => here.offset ≤ c.offset ∧ c.offset ≤ max here.offset stop.offset)
    (fun count c hc _ => ?_) (fun count c v mid hc _ hround _ => ?_)
    ⟨Nat.le_refl _, Nat.le_max_left _ _⟩
  · have hsepfin : (r.separatorAt count).Finishes c stop := by
      unfold separatorAt
      split
      · exact finishes_empty
      · exact (hfin c hc.1 hc.2).1
    refine hsepfin.bind fun d u hd => (hfin d ?_ ?_).2
    · have hle := separatorAt_advances hsep count hd
      omega
    · have hle := separatorAt_advances hsep count hd
      omega
  · have hle := hr count hround
    omega

end Parts

namespace Greedy

variable (h : r.Greedy stop 0 here es)

include h

theorem drive_eq {push : σ → α → σ} {fuel : Nat} (hfuel : es.length < fuel) (acc : σ) :
    r.drive push stop fuel 0 here acc =
      some ((es.map Prod.fst).foldl push acc, r.close es.length (endOf here es)) := by
  have hrun := h.run fun n _ => Nat.zero_le n
  rw [drive_of_run hrun (by rwa [List.length_map]), List.length_map, Nat.zero_add]

theorem accepted_eq (hr : r.Advances stop) :
    r.accepted here stop = some (es.map Prod.fst, endOf here es) := by
  have hlen := (h.run fun n _ => Nat.zero_le n).length_le hr
  rw [List.length_map] at hlen
  unfold accepted extend
  rw [h.drive_eq (by unfold rounds; omega), foldl_append_singleton, List.nil_append]
  exact congrArg (fun c => some (es.map Prod.fst, c)) (r.close_cursor es.length (endOf here es))

end Greedy

/-- A repetition answers what its greedy run comes to, whatever its item and its separator do. There
is no more than one such run, the loop finds it on every supply of rounds that is longer, and the
supply it has is longer if neither part moves back or beyond the window. -/
theorem greedy_run (r : Repetition α) (here stop : Cursor) :
    (∀ es es', r.Greedy stop 0 here es → r.Greedy stop 0 here es' → es = es') ∧
      (∀ p, r.list here stop = some p → ∃ es, r.Greedy stop 0 here es ∧ p = r.answer here es) ∧
      (∀ p, r.skip here stop = some p →
        ∃ es, r.Greedy stop 0 here es ∧ p = (r.answer here es).map fun _ => ()) ∧
      (∀ es, r.Greedy stop 0 here es → ∀ {σ : Type} (push : σ → α → σ) (acc : σ) (fuel : Nat),
        es.length < fuel → r.drive push stop fuel 0 here acc =
          some ((es.map Prod.fst).foldl push acc, (r.answer here es).map fun _ => ())) ∧
      (r.separator.Advances stop → r.item.Advances stop →
        (∀ es, r.Greedy stop 0 here es → r.list here stop = some (r.answer here es) ∧
          r.skip here stop = some ((r.answer here es).map fun _ => ())) ∧
        ((∀ c, here.offset ≤ c.offset → c.offset ≤ max here.offset stop.offset →
            r.separator.Finishes c stop ∧ r.item.Finishes c stop) →
          ∃ es, r.Greedy stop 0 here es)) ∧
      ((∀ ⦃c d u⦄, r.separator c stop = some (.success d u) → c.offset ≤ d.offset) →
        (∀ ⦃c d v⦄, r.item c stop = some (.success d v) → c.offset < d.offset) →
        ∀ es, r.Greedy stop 0 here es ↔
          r.Items stop 0 here es ∧ (∀ n ∈ r.bounds.max, es.length ≤ n) ∧
            (r.bounds.max = some es.length ∨ (r.round es.length).Fails (endOf here es) stop)) := by
  refine ⟨fun es es' h h' => h.unique h', fun p hp => ?_, fun p hp => ?_,
    fun es h σ push acc fuel hfuel => ?_, fun hsep hitem => ⟨fun es h => ?_, fun hfin => ?_⟩,
    fun hsep hitem es => ?_⟩
  · obtain ⟨⟨vs, last⟩, hacc, -⟩ := Option.map_eq_some_iff.1 (r.list_eq_accepted here stop ▸ hp)
    obtain ⟨es, hes, rfl, rfl⟩ := greedy_of_accepted hacc
    exact ⟨es, hes, Option.some.inj (hp.symm.trans (answer_of_accepted hacc).1)⟩
  · obtain ⟨⟨vs, last⟩, hacc, -⟩ := Option.map_eq_some_iff.1 (r.skip_eq_accepted here stop ▸ hp)
    obtain ⟨es, hes, rfl, rfl⟩ := greedy_of_accepted hacc
    exact ⟨es, hes, Option.some.inj (hp.symm.trans (answer_of_accepted hacc).2)⟩
  · rw [h.drive_eq hfuel, close_eq_answer]
  · exact answer_of_accepted (h.accepted_eq (advances_of_parts hsep hitem))
  · obtain ⟨vs, last, hrun⟩ := exists_run_of_parts hsep hitem hfin
    obtain ⟨es, hes, -⟩ := hrun.greedy fun n _ => Nat.zero_le n
    exact ⟨es, hes⟩
  · have hmoves : ∀ {count c d v}, r.round count c stop = some (.success d v) →
        c.offset < d.offset := by
      intro count c d v hround
      obtain ⟨next, u, hnext, hd⟩ := bind_eq_success.1 hround
      have hle : c.offset ≤ next.offset := by
        rcases separatorAt_eq_success hnext with rfl | hnext
        · exact Nat.le_refl _
        · exact hsep hnext
      exact Nat.lt_of_le_of_lt hle (hitem hd)
    rw [greedy_iff_maximal hmoves fun n _ => Nat.zero_le n]
    simp only [Nat.zero_add]

end Repetition

end PegParsing
