import PegParsing.Parser.Repetition
import PegParsing.Proofs.Parser.Agreement

/-!
# Runs of a repetition

`Run` says what a repetition does, without a supply of rounds: it ends at its upper bound, at a round
that fails, or behind an item that read nothing once enough items are there. `drive` finds exactly
these runs (`run_of_drive`, `drive_of_run`), and if no round moves back, the supply that `extend`
begins with is enough for every run (`Run.length_le`, `collect_eq_some_iff`).

Repetitions agree if their separators and their items do (`agrees_collect`).
-/

namespace PegParsing

/-- Counts that are not beyond the upper bound cannot grow just if they have come to it. -/
theorem Bounds.full_iff {b : Bounds} {count : Nat} (hcount : ∀ n ∈ b.max, count ≤ n) :
    b.full count = true ↔ b.max = some count := by
  unfold full
  cases hmax : b.max with
  | none => exact iff_of_false nofun nofun
  | some n =>
    have hle := hcount n hmax
    rw [Option.any_some, decide_eq_true_eq, Option.some.injEq]
    omega

/-- The parser moves neither back nor beyond the window. -/
def Parser.Advances {α : Type} (p : Parser α) (stop : Cursor) : Prop :=
  ∀ ⦃here c v⦄, p here stop = some (.success c v) →
    here.offset ≤ c.offset ∧ c.offset ≤ max here.offset stop.offset

/-- A parser that looks at its window alone stays in it. -/
theorem Parser.Agrees.advances {α : Type} {p : Parser α} (h : p.Agrees p) (stop : Cursor) :
    p.Advances stop := fun _ _ _ hp => ⟨(h.reaches hp).offset_le, (h.reaches hp).offset_le_max⟩

theorem Parser.Advances.skip {α : Type} {p : Parser α} {stop : Cursor} (h : p.Advances stop) :
    p.skip.Advances stop := by
  intro here c u hu
  obtain ⟨⟨d, code | v⟩, hp, hd⟩ := Option.map_eq_some_iff.1 hu
  · cases hd
  · cases hd
    exact h hp

namespace Repetition

open Cursor

variable {α σ : Type}

/-- One round: the separator, and the item behind it. -/
def round (r : Repetition α) (count : Nat) : Parser α := (r.separatorAt count).bind fun _ => r.item

/-- The item read nothing, and no more of them are asked for. -/
def Stalls (r : Repetition α) (count : Nat) (here last : Cursor) : Prop :=
  last.offset = here.offset ∧ r.bounds.min ≤ count + 1

instance (r : Repetition α) (count : Nat) (here last : Cursor) : Decidable (r.Stalls count here last) :=
  inferInstanceAs (Decidable (_ ∧ _))

/-- From `here`, behind `count` items, the repetition accepts the items `vs` and ends at the cursor
given last. -/
inductive Run (r : Repetition α) (stop : Cursor) : Nat → Cursor → List α → Cursor → Prop
  | full {count here} : r.bounds.full count = true → Run r stop count here [] here
  | failed {count here c code} : r.bounds.full count = false →
      r.round count here stop = some (.failure c code) → Run r stop count here [] here
  | stalled {count here v last} : r.bounds.full count = false →
      r.round count here stop = some (.success last v) → r.Stalls count here last →
      Run r stop count here [v] last
  | next {count here v mid vs last} : r.bounds.full count = false →
      r.round count here stop = some (.success mid v) → ¬ r.Stalls count here mid →
      Run r stop (count + 1) mid vs last → Run r stop count here (v :: vs) last

/-! ## Runs and supplies -/

variable {r : Repetition α} {stop here last : Cursor} {count : Nat} {vs : List α}

theorem drive_succ (r : Repetition α) (push : σ → α → σ) (stop : Cursor) (fuel count : Nat)
    (here : Cursor) (acc : σ) :
    r.drive push stop (fuel + 1) count here acc =
      if r.bounds.full count then some (acc, r.close count here)
      else (r.round count here stop).bind fun
        | ⟨_, .error _⟩ => some (acc, r.close count here)
        | ⟨last, .ok v⟩ =>
          if r.Stalls count here last then some (push acc v, r.close (count + 1) last)
          else r.drive push stop fuel (count + 1) last (push acc v) := by
  rw [drive]
  unfold round Parser.bind Stalls
  rcases r.separatorAt count here stop with _ | ⟨next, _ | -⟩
  · rfl
  · rfl
  · simp only [Option.bind_some]
    rcases r.item next stop with _ | ⟨last, _ | v⟩ <;> rfl

theorem run_of_drive {push : σ → α → σ} {fuel : Nat} {acc : σ} {s : σ × Parsed Unit}
    (h : r.drive push stop fuel count here acc = some s) :
    ∃ vs last, Run r stop count here vs last ∧
      s = (vs.foldl push acc, r.close (count + vs.length) last) := by
  induction fuel generalizing count here acc with
  | zero => cases h
  | succ fuel ih =>
    rw [drive_succ] at h
    by_cases hfull : r.bounds.full count
    · rw [if_pos hfull] at h
      cases h
      exact ⟨[], here, .full hfull, rfl⟩
    rw [if_neg hfull] at h
    rw [Bool.not_eq_true] at hfull
    obtain ⟨⟨mid, o⟩, hround, h⟩ := Option.bind_eq_some_iff.1 h
    cases o with
    | error code =>
      cases h
      exact ⟨[], here, .failed hfull hround, rfl⟩
    | ok v =>
      simp only at h
      by_cases hst : r.Stalls count here mid
      · rw [if_pos hst] at h
        cases h
        exact ⟨[v], mid, .stalled hfull hround hst, rfl⟩
      · rw [if_neg hst] at h
        obtain ⟨vs, last, hrun, rfl⟩ := ih h
        refine ⟨v :: vs, last, .next hfull hround hst hrun, ?_⟩
        rw [List.foldl_cons, List.length_cons, Nat.add_right_comm, Nat.add_assoc]

theorem drive_of_run {push : σ → α → σ} {fuel : Nat} (h : Run r stop count here vs last)
    (hfuel : vs.length < fuel) (acc : σ) :
    r.drive push stop fuel count here acc =
      some (vs.foldl push acc, r.close (count + vs.length) last) := by
  induction h generalizing fuel acc with
  | full hfull =>
    obtain ⟨fuel, rfl⟩ := Nat.exists_eq_add_of_lt hfuel
    rw [drive_succ, if_pos hfull]
    rfl
  | failed hfull hround =>
    obtain ⟨fuel, rfl⟩ := Nat.exists_eq_add_of_lt hfuel
    rw [drive_succ, hfull, hround]
    rfl
  | stalled hfull hround hst =>
    obtain ⟨fuel, rfl⟩ := Nat.exists_eq_add_of_lt hfuel
    rw [drive_succ, hfull, hround]
    exact if_pos hst
  | @next count here v mid vs last hfull hround hst hrun ih =>
    obtain ⟨fuel, rfl⟩ := Nat.exists_eq_add_of_lt hfuel
    rw [drive_succ, hfull, hround, List.foldl_cons, List.length_cons]
    refine (if_neg hst).trans ?_
    rw [ih (by omega), Nat.add_right_comm count, Nat.add_assoc count]

/-- A larger supply changes nothing. -/
theorem drive_mono {push : σ → α → σ} {fuel more : Nat} {acc : σ} {s : σ × Parsed Unit}
    (h : r.drive push stop fuel count here acc = some s) (hle : fuel ≤ more) :
    r.drive push stop more count here acc = some s := by
  induction fuel generalizing more count here acc with
  | zero => cases h
  | succ fuel ih =>
    obtain ⟨more, rfl⟩ := Nat.exists_eq_add_of_le' (Nat.le_trans (Nat.le_add_left 1 fuel) hle)
    have hle' : fuel ≤ more := Nat.le_of_succ_le_succ hle
    rw [drive_succ] at h ⊢
    by_cases hfull : r.bounds.full count
    · rwa [if_pos hfull] at h ⊢
    rw [if_neg hfull] at h ⊢
    obtain ⟨⟨last, o⟩, hround, h⟩ := Option.bind_eq_some_iff.1 h
    rw [hround]
    cases o with
    | error code => exact h
    | ok v =>
      simp only [Option.bind_some] at h ⊢
      by_cases hst : r.Stalls count here last
      · rwa [if_pos hst] at h ⊢
      · rw [if_neg hst] at h ⊢
        exact ih h hle'

/-- Two supplies that are enough come to the same. -/
theorem drive_unique {push : σ → α → σ} {fuel fuel' : Nat} {acc : σ} {s s' : σ × Parsed Unit}
    (h : r.drive push stop fuel count here acc = some s)
    (h' : r.drive push stop fuel' count here acc = some s') : s = s' :=
  Option.some.inj
    ((drive_mono h (Nat.le_max_left _ _)).symm.trans (drive_mono h' (Nat.le_max_right _ _)))

/-- No round of the repetition moves back. -/
def Forward (r : Repetition α) (stop : Cursor) : Prop :=
  ∀ ⦃count here v last⦄, r.round count here stop = some (.success last v) → here.Reaches stop last

/-- No round of the repetition moves back or beyond the window, wherever else it ends. -/
def Advances (r : Repetition α) (stop : Cursor) : Prop := ∀ count, (r.round count).Advances stop

theorem Forward.advances (hr : r.Forward stop) : r.Advances stop :=
  fun _ _ _ _ hround => ⟨(hr hround).offset_le, (hr hround).offset_le_max⟩

/-- A round that moves leaves less to read. -/
theorem Advances.remaining_lt (hr : r.Advances stop) {v : α}
    (hround : r.round count here stop = some (.success last v)) (hne : last.offset ≠ here.offset) :
    last.remaining stop < here.remaining stop := by
  obtain ⟨hle, hmax⟩ := hr count hround
  unfold remaining
  omega

namespace Run

theorem reaches (hr : r.Forward stop) (h : Run r stop count here vs last) :
    here.Reaches stop last := by
  induction h with
  | full hfull => exact Reaches.refl _ _
  | failed hfull hround => exact Reaches.refl _ _
  | stalled hfull hround hst => exact hr hround
  | next hfull hround hst hrun ih => exact (hr hround).trans ih

theorem offset_le (hr : r.Advances stop) (h : Run r stop count here vs last) :
    here.offset ≤ last.offset ∧ last.offset ≤ max here.offset stop.offset := by
  induction h with
  | full hfull => exact ⟨Nat.le_refl _, Nat.le_max_left _ _⟩
  | failed hfull hround => exact ⟨Nat.le_refl _, Nat.le_max_left _ _⟩
  | stalled hfull hround hst => exact hr _ hround
  | next hfull hround hst hrun ih =>
    have hmid := hr _ hround
    omega

/-- A round reads something or adds to the items still missing, or it is the last. -/
theorem length_le_read (hr : r.Advances stop) (h : Run r stop count here vs last) :
    vs.length ≤ (last.offset - here.offset) + max 1 (r.bounds.min - count) := by
  induction h with
  | full hfull => exact Nat.zero_le _
  | failed hfull hround => exact Nat.zero_le _
  | stalled hfull hround hst =>
    rw [List.length_singleton]
    omega
  | @next count here v mid vs last hfull hround hst hrun ih =>
    rw [List.length_cons]
    have hle := (hr _ hround).1
    have hlast := (hrun.offset_le hr).1
    by_cases hmid : mid.offset = here.offset
    · -- the round read nothing, so that more items are asked for
      have hmin : count + 1 < r.bounds.min := Nat.lt_of_not_le fun hle => hst ⟨hmid, hle⟩
      omega
    · omega

theorem length_le (hr : r.Advances stop) (h : Run r stop count here vs last) :
    vs.length ≤ here.remaining stop + max 1 (r.bounds.min - count) := by
  have hread := h.length_le_read hr
  have hlast := h.offset_le hr
  unfold remaining
  omega

end Run

/-- There is a run if each round finishes wherever the repetition can come. What holds where it can
come may be any invariant of its rounds. -/
theorem exists_run (hr : r.Advances stop) {I : Nat → Cursor → Prop}
    (hround : ∀ count here, I count here → r.bounds.full count = false →
      (r.round count here stop).isSome)
    (hstep : ∀ count here v mid, I count here → r.bounds.full count = false →
      r.round count here stop = some (.success mid v) → ¬ r.Stalls count here mid → I (count + 1) mid)
    (h : I count here) : ∃ vs last, Run r stop count here vs last := by
  induction hm : here.remaining stop + (r.bounds.min - count) using Nat.strongRecOn
    generalizing count here with
  | ind m ih =>
    by_cases hfull : r.bounds.full count
    · exact ⟨[], here, .full hfull⟩
    rw [Bool.not_eq_true] at hfull
    obtain ⟨⟨mid, code | v⟩, hres⟩ := Option.isSome_iff_exists.1 (hround count here h hfull)
    · exact ⟨[], here, .failed hfull hres⟩
    by_cases hst : r.Stalls count here mid
    · exact ⟨[v], mid, .stalled hfull hres hst⟩
    -- the next round has less to read, or fewer items are missing
    have hlt : mid.remaining stop + (r.bounds.min - (count + 1)) < m := by
      by_cases hmid : mid.offset = here.offset
      · have hmin : count + 1 < r.bounds.min := Nat.lt_of_not_le fun hle => hst ⟨hmid, hle⟩
        unfold remaining at hm ⊢
        omega
      · have hrem := hr.remaining_lt hres hmid
        omega
    obtain ⟨vs, last, hrun⟩ := ih _ hlt (hstep count here v mid h hfull hres hst) rfl
    exact ⟨v :: vs, last, .next hfull hres hst hrun⟩

theorem collect_eq_some_iff (hr : r.Forward stop) {into : Container α σ} {p : Parsed σ} :
    r.collect into here stop = some p ↔ ∃ vs last, Run r stop 0 here vs last ∧
      p = (r.close vs.length last).map fun _ => into.extend into.empty vs := by
  unfold collect extend
  constructor
  · intro h
    obtain ⟨⟨acc, q⟩, hdrive, rfl⟩ := Option.map_eq_some_iff.1 h
    obtain ⟨vs, last, hrun, hs⟩ := run_of_drive hdrive
    rw [Nat.zero_add] at hs
    cases hs
    exact ⟨vs, last, hrun, rfl⟩
  · rintro ⟨vs, last, hrun, rfl⟩
    have hlen := hrun.length_le hr.advances
    rw [drive_of_run hrun (by unfold rounds; omega), Nat.zero_add]
    rfl

/-- More rounds than `extend` begins with change nothing. -/
theorem Advances.drive_eq_extend (hr : r.Advances stop) {into : Container α σ} {fuel : Nat} (acc : σ)
    (h : r.rounds here stop ≤ fuel) :
    r.drive into.push stop fuel 0 here acc = r.extend into here stop acc := by
  unfold extend
  by_cases hrun : ∃ vs last, Run r stop 0 here vs last
  · obtain ⟨vs, last, hrun⟩ := hrun
    have hlen := hrun.length_le hr
    unfold rounds at *
    rw [drive_of_run hrun (by omega), drive_of_run hrun (by omega)]
  · -- without a run no supply is enough
    have hnone : ∀ fuel, r.drive into.push stop fuel 0 here acc = none := fun fuel =>
      Option.eq_none_iff_forall_not_mem.2 fun s hs =>
        have ⟨vs, last, h, _⟩ := run_of_drive hs
        hrun ⟨vs, last, h⟩
    rw [hnone, hnone]

theorem drive_eq_extend (hr : r.Forward stop) {into : Container α σ} {fuel : Nat} (acc : σ)
    (h : r.rounds here stop ≤ fuel) :
    r.drive into.push stop fuel 0 here acc = r.extend into here stop acc :=
  hr.advances.drive_eq_extend acc h

/-! ## Agreement -/

/-- Repetitions within the same bounds, of separators and of items that agree. -/
structure Agrees (r r' : Repetition α) : Prop where
  bounds : r.bounds = r'.bounds
  separator : r.separator.Agrees r'.separator
  item : r.item.Agrees r'.item

namespace Agrees

variable {r' : Repetition α} {stop' here' last' : Cursor} {vs' : List α}

theorem separatorAt (h : r.Agrees r') (count : Nat) :
    (r.separatorAt count).Agrees (r'.separatorAt count) := by
  unfold Repetition.separatorAt
  by_cases hc : count = 0
  · rw [if_pos hc, if_pos hc]
    exact Parser.agrees_empty
  · rw [if_neg hc, if_neg hc]
    exact h.separator

theorem round (h : r.Agrees r') (count : Nat) : (r.round count).Agrees (r'.round count) :=
  (h.separatorAt count).bind fun _ => h.item

theorem forward (h : r.Agrees r) (stop : Cursor) : r.Forward stop :=
  fun _ _ _ _ hround => (h.round _).reaches hround

theorem stalls_iff (h : r.Agrees r') (hc : InStep stop here here' last last') :
    r.Stalls count here last ↔ r'.Stalls count here' last' :=
  and_congr hc.offset_eq_iff (by rw [h.bounds])

theorem close (h : r.Agrees r') (hc : InStep stop here here' last last') (count : Nat) :
    (r.close count last).Alike stop here here' (r'.close count last') := by
  unfold Repetition.close
  rw [← h.bounds]
  by_cases hmin : count < r.bounds.min
  · rw [if_pos hmin, if_pos hmin]
    exact ⟨rfl, hc⟩
  · rw [if_neg hmin, if_neg hmin]
    exact ⟨rfl, hc⟩

/-- In windows that show the same, the runs accept the same items and read the same. -/
theorem run (h : r.Agrees r') (hs : ShowsSame here stop here' stop')
    (hrun : Run r stop count here vs last) (hrun' : Run r' stop' count here' vs' last') :
    vs = vs' ∧ InStep stop here here' last last' := by
  induction hrun generalizing here' vs' with
  | full hfull =>
    rw [h.bounds] at hfull
    cases hrun' with
    | full => exact ⟨rfl, InStep.refl _ _ _⟩
    | failed hnot | stalled hnot | next hnot =>
      rw [hfull] at hnot
      cases hnot
  | failed hnot hround =>
    cases hrun' with
    | full => exact ⟨rfl, InStep.refl _ _ _⟩
    | failed => exact ⟨rfl, InStep.refl _ _ _⟩
    | stalled _ hround' | next _ hround' => cases (h.round _ hs hround hround').outcome
  | stalled hnot hround hst =>
    rw [h.bounds] at hnot
    cases hrun' with
    | full hfull =>
      rw [hfull] at hnot
      cases hnot
    | failed _ hround' => cases (h.round _ hs hround hround').outcome
    | stalled _ hround' hst' =>
      obtain ⟨⟨⟩, hc⟩ := h.round _ hs hround hround'
      exact ⟨rfl, hc⟩
    | next _ hround' hst' =>
      obtain ⟨-, hc⟩ := h.round _ hs hround hround'
      exact absurd ((h.stalls_iff hc).1 hst) hst'
  | next hnot hround hst hrun ih =>
    rw [h.bounds] at hnot
    cases hrun' with
    | full hfull =>
      rw [hfull] at hnot
      cases hnot
    | failed _ hround' => cases (h.round _ hs hround hround').outcome
    | stalled _ hround' hst' =>
      obtain ⟨-, hc⟩ := h.round _ hs hround hround'
      exact absurd ((h.stalls_iff hc).2 hst') hst
    | next _ hround' hst' hrun' =>
      obtain ⟨⟨⟩, hc⟩ := h.round _ hs hround hround'
      obtain ⟨rfl, hd⟩ := ih (hs.inStep hc) hrun'
      exact ⟨rfl, hc.trans hd⟩

theorem collect (h : r.Agrees r') (into : Container α σ) :
    (r.collect into).Agrees (r'.collect into) := by
  intro here stop here' stop' hs p p' hp hp'
  obtain ⟨⟨acc, q⟩, hq, rfl⟩ := Option.map_eq_some_iff.1 hp
  obtain ⟨⟨acc', q'⟩, hq', rfl⟩ := Option.map_eq_some_iff.1 hp'
  obtain ⟨vs, last, hrun, hacc⟩ := run_of_drive hq
  obtain ⟨vs', last', hrun', hacc'⟩ := run_of_drive hq'
  obtain ⟨rfl, hc⟩ := h.run hs hrun hrun'
  cases hacc
  cases hacc'
  obtain ⟨ho, hd⟩ := h.close hc (0 + vs.length)
  exact ⟨congrArg (Except.map _) ho, hd⟩

theorem list (h : r.Agrees r') : r.list.Agrees r'.list := (h.collect .list).map _

theorem skip (h : r.Agrees r') : r.skip.Agrees r'.skip := h.collect .nothing

end Agrees

end Repetition

end PegParsing
