import PegParsing.Proofs.Grammar.Greedy

/-!
# When a repetition ends

Every round of a repetition reads something, or adds to the items still missing, or is the last. So the
loop ends whatever its item and its separator are, as long as they stay in the window, and it accepts
no more items than the upper bound allows, nor many more than it reads bytes
(`Repetition.ends_within`).

Whether an item moved the repetition is asked of the place where the item before it ended. An item that
read nothing is therefore the last, if there are enough with it, where the separator before it read
nothing either. Behind a separator that did read something it is an item like any other, and others
follow if there may be more and the next round succeeds (`Repetition.idle_item_ends`).
-/

namespace PegParsing

open Cursor PegParsing.Parser

namespace Repetition

variable {α σ : Type} {r : Repetition α} {stop here last next c : Cursor} {count : Nat} {v : α}
  {es es' : List (α × Cursor)}

/-! ## How long the loop goes on -/

/-- The loop accepts as many items as its upper bound allows at most, and at most as many as it reads
bytes, but for the items that it must have and for one. It ends within a supply of rounds that is
known beforehand, if its parts do wherever it can come. -/
theorem ends_within (r : Repetition α) (here stop : Cursor) (hsep : r.separator.Advances stop)
    (hitem : r.item.Advances stop) :
    (∀ {σ : Type} (push : σ → α → σ) (acc : σ) (fuel : Nat) (s : σ × Parsed Unit),
      r.drive push stop fuel 0 here acc = some s →
        ∃ (vs : List α) (last : Cursor), s = (vs.foldl push acc, r.close vs.length last) ∧
          here.offset ≤ last.offset ∧ last.offset ≤ max here.offset stop.offset ∧
          (∀ n ∈ r.bounds.max, vs.length ≤ n) ∧
          vs.length ≤ (last.offset - here.offset) + max r.bounds.min 1) ∧
      ((∀ c, here.offset ≤ c.offset → c.offset ≤ max here.offset stop.offset →
          r.separator.Finishes c stop ∧ r.item.Finishes c stop) →
        ∀ {σ : Type} (push : σ → α → σ) (acc : σ) (fuel : Nat),
          here.remaining stop + max r.bounds.min 1 < fuel →
            (r.drive push stop fuel 0 here acc).isSome) := by
  have hr := advances_of_parts hsep hitem
  refine ⟨fun push acc fuel s hs => ?_, fun hfin σ push acc fuel hfuel => ?_⟩
  · obtain ⟨vs, last, hrun, rfl⟩ := run_of_drive hs
    have hlast := hrun.offset_le hr
    have hread := hrun.length_le_read hr
    rw [Nat.sub_zero, Nat.max_comm] at hread
    refine ⟨vs, last, by rw [Nat.zero_add], hlast.1, hlast.2, fun n hn => ?_, hread⟩
    have hlen := hrun.length_le_max hn (Nat.zero_le n)
    rwa [Nat.zero_add] at hlen
  · obtain ⟨vs, last, hrun⟩ := exists_run_of_parts hsep hitem hfin
    have hlen := hrun.length_le hr
    rw [drive_of_run hrun (by omega)]
    rfl

/-- An optional digit is accepted twice in front of a letter, and once more without reading anything:
one item more than bytes are read. -/
theorem ends_within_optional_digits :
    let r := times .any digit.opt
    let here := start "12x".toList
    let stop := finish "12x".toList
    let push : List (Option Char) → Option Char → List (Option Char) := fun vs v => vs ++ [v]
    r.separator.Advances stop ∧ r.item.Advances stop ∧
      (∀ c, here.offset ≤ c.offset → c.offset ≤ max here.offset stop.offset →
        r.separator.Finishes c stop ∧ r.item.Finishes c stop) ∧
      (∃ (vs : List (Option Char)) (last : Cursor),
        r.drive push stop 5 0 here [] = some (vs.foldl push [], r.close vs.length last) ∧
          vs.length ≤ (last.offset - here.offset) + max r.bounds.min 1) ∧
      r.drive push stop 5 0 here [] =
        some ([some '1', some '2', none], .success (here.advance 2) ()) := by
  intro r here stop push
  have hsep : r.separator.Advances stop := agrees_empty.advances stop
  have hitem : r.item.Advances stop := (agrees_charIf _).opt.advances stop
  have hfin : ∀ c, here.offset ≤ c.offset → c.offset ≤ max here.offset stop.offset →
      r.separator.Finishes c stop ∧ r.item.Finishes c stop :=
    fun c _ _ => ⟨finishes_empty, (finishes_charIf _).opt⟩
  obtain ⟨hbounds, hends⟩ := ends_within r here stop hsep hitem
  obtain ⟨s, hs⟩ := Option.isSome_iff_exists.1 (hends hfin push [] 5 (by decide))
  obtain ⟨vs, last, rfl, -, -, -, hlen⟩ := hbounds push [] 5 s hs
  exact ⟨hsep, hitem, hfin, ⟨vs, last, hs, hlen⟩, by decide +kernel⟩

/-! ## Behind some items -/

/-- The repetition accepts these items, and goes on behind the last of them. -/
structure GoesOn (r : Repetition α) (stop : Cursor) (count : Nat) (here : Cursor)
    (es : List (α × Cursor)) : Prop where
  items : r.Items stop count here es
  not_halts : ∀ j ≤ es.length, ¬ r.Halts stop count here (es.take j)

theorem Items.concat (h : r.Items stop count here es)
    (hround : r.round (count + es.length) (endOf here es) stop = some (.success c v)) :
    r.Items stop count here (es ++ [(v, c)]) := by
  induction es generalizing count here with
  | nil => exact items_cons.2 ⟨hround, .nil⟩
  | cons e es ih =>
    obtain ⟨w, mid⟩ := e
    obtain ⟨hfirst, hes⟩ := items_cons.1 h
    rw [List.length_cons, Nat.add_comm es.length, ← Nat.add_assoc] at hround
    exact items_cons.2 ⟨hfirst, ih hes hround⟩

/-- Of two rows of items that begin at one place, the one goes on where the other ends. -/
theorem Items.prefix_total (h : r.Items stop count here es) (h' : r.Items stop count here es') :
    es <+: es' ∨ es' <+: es := by
  induction es generalizing count here es' with
  | nil => exact .inl List.nil_prefix
  | cons e es ih =>
    cases es' with
    | nil => exact .inr List.nil_prefix
    | cons e' es' =>
      obtain ⟨v, mid⟩ := e
      obtain ⟨v', mid'⟩ := e'
      obtain ⟨hround, hes⟩ := items_cons.1 h
      obtain ⟨hround', hes'⟩ := items_cons.1 h'
      cases hround.symm.trans hround'
      rw [List.prefix_cons_inj, List.prefix_cons_inj]
      exact ih hes hes'

theorem endOf_concat : endOf here (es ++ [(v, c)]) = c := by
  induction es generalizing here with
  | nil => rfl
  | cons e es ih => exact ih

theorem idle_concat : Idle here (es ++ [(v, c)]) ↔ c.offset = (endOf here es).offset := by
  constructor
  · rintro ⟨before, w, last, h, hlast⟩
    obtain ⟨rfl, heq⟩ := List.append_inj' h rfl
    cases heq
    exact hlast
  · intro hc
    exact ⟨es, v, c, rfl, hc⟩

namespace GoesOn

theorem nil (hfull : r.bounds.full count = false)
    (hround : r.round count here stop = some (.success c v)) : r.GoesOn stop count here [] := by
  refine ⟨.nil, fun j _ => ?_⟩
  rw [List.take_nil]
  exact not_halts_nil hfull hround

/-- Where the repetition goes on behind some items, it accepts others. -/
theorem exists_append (h : r.GoesOn stop count here es) (h' : r.Greedy stop count here es') :
    ∃ e rest, es' = es ++ e :: rest := by
  have hshort : ¬ es' <+: es := fun hprefix => by
    have hnot := h.not_halts es'.length hprefix.length_le
    rw [← List.prefix_iff_eq_take.1 hprefix] at hnot
    exact hnot h'.halts
  obtain ⟨rest, rfl⟩ := (h.items.prefix_total h'.items).resolve_right hshort
  cases rest with
  | nil =>
    rw [List.append_nil] at hshort
    exact absurd List.prefix_rfl hshort
  | cons e rest => exact ⟨e, rest, rfl⟩

/-- With one item more, either the repetition ends or it goes on. -/
theorem concat (h : r.GoesOn stop count here es)
    (hround : r.round (count + es.length) (endOf here es) stop = some (.success c v)) :
    (r.Halts stop count here (es ++ [(v, c)]) → r.Greedy stop count here (es ++ [(v, c)])) ∧
      (¬ r.Halts stop count here (es ++ [(v, c)]) → r.GoesOn stop count here (es ++ [(v, c)])) := by
  have hitems := h.items.concat hround
  have hbefore : ∀ j < (es ++ [(v, c)]).length, ¬ r.Halts stop count here ((es ++ [(v, c)]).take j) := by
    intro j hj
    rw [List.length_append, List.length_singleton] at hj
    rw [List.take_append_of_le_length (Nat.le_of_lt_succ hj)]
    exact h.not_halts j (Nat.le_of_lt_succ hj)
  refine ⟨fun hhalts => ⟨hitems, hhalts, hbefore⟩, fun hnot => ⟨hitems, fun j hj => ?_⟩⟩
  obtain hlt | rfl := Nat.lt_or_eq_of_le hj
  · exact hbefore j hlt
  · rwa [List.take_length]

end GoesOn

/-! ## Items that read nothing -/

/-- Where an item read nothing, the repetition ends behind it if the separator before it read nothing
either, and else where it ends behind any item. -/
theorem halts_of_idle (hidle : c.offset = next.offset) (hmin : r.bounds.min ≤ es.length + 1) :
    r.Halts stop 0 here (es ++ [(v, c)]) ↔
      next.offset = (endOf here es).offset ∨ r.bounds.max = some (es.length + 1) ∨
        (r.round (es.length + 1)).Fails c stop := by
  have hlen : 0 + (es ++ [(v, c)]).length = es.length + 1 := by
    rw [Nat.zero_add, List.length_append, List.length_singleton]
  unfold Halts
  rw [hlen, endOf_concat, idle_concat, hidle, and_iff_right (Nat.max_le.2 ⟨hmin, Nat.le_add_left _ _⟩)]
  exact or_rotate.symm

/-- An item that read nothing, if there are enough with it, is the last one and the repetition succeeds
behind it, just where the separator before it read nothing, or there may be no more items, or the next
round fails. Behind a separator that read something, others may follow. -/
theorem idle_item_ends (r : Repetition α) {here stop next c : Cursor} {es : List (α × Cursor)} {v : α}
    {u : Unit} (h : r.GoesOn stop 0 here es)
    (hsep : r.separatorAt es.length (endOf here es) stop = some (.success next u))
    (hitem : r.item next stop = some (.success c v)) (hidle : c.offset = next.offset)
    (hmin : r.bounds.min ≤ es.length + 1) {σ : Type} (push : σ → α → σ) (acc : σ) :
    let isLast := next.offset = (endOf here es).offset ∨ r.bounds.max = some (es.length + 1) ∨
      (r.round (es.length + 1)).Fails c stop
    let accepted := push ((es.map Prod.fst).foldl push acc) v
    (isLast → ∀ fuel, es.length + 1 < fuel →
      r.drive push stop fuel 0 here acc = some (accepted, .success c ())) ∧
      (¬ isLast → ∀ fuel s, r.drive push stop fuel 0 here acc = some s →
        ∃ w ws last, s = ((w :: ws).foldl push accepted, r.close (es.length + 2 + ws.length) last)) := by
  intro isLast accepted
  have hround : r.round (0 + es.length) (endOf here es) stop = some (.success c v) := by
    rw [Nat.zero_add]
    exact bind_eq_success.2 ⟨next, u, hsep, hitem⟩
  have hhalts : r.Halts stop 0 here (es ++ [(v, c)]) ↔ isLast := halts_of_idle hidle hmin
  obtain ⟨hends, hgoesOn⟩ := h.concat hround
  have hpush : ((es ++ [(v, c)]).map Prod.fst).foldl push acc = accepted := by
    rw [List.map_append, List.foldl_append]
    rfl
  refine ⟨fun hlast fuel hfuel => ?_, fun hnot fuel s hs => ?_⟩
  · have hgreedy := hends (hhalts.2 hlast)
    rw [hgreedy.drive_eq (by rwa [List.length_append]), hpush, endOf_concat]
    congr 1
    exact congrArg (Prod.mk _) (close_eq_success.2 ⟨rfl, by rwa [List.length_append]⟩)
  · obtain ⟨vs, last, hrun, rfl⟩ := run_of_drive hs
    obtain ⟨es', hgreedy, rfl, rfl⟩ := hrun.greedy fun n _ => Nat.zero_le n
    obtain ⟨e, rest, rfl⟩ := (hgoesOn (mt hhalts.1 hnot)).exists_append hgreedy
    have hlen : 0 + ((es ++ [(v, c)] ++ e :: rest).map Prod.fst).length =
        es.length + 2 + (rest.map Prod.fst).length := by
      simp only [List.length_map, List.length_append, List.length_cons, List.length_nil]
      omega
    refine ⟨e.1, rest.map Prod.fst, endOf here (es ++ [(v, c)] ++ e :: rest), ?_⟩
    rw [hlen, List.map_append, List.foldl_append, hpush]
    rfl

/-- Between two commas an optional digit is accepted that is not there, and a digit behind them. -/
theorem idle_item_ends_between_commas :
    let r : Repetition (Option Char) := ⟨.any, char ',', digit.opt⟩
    let here := start "1,,2".toList
    let stop := finish "1,,2".toList
    let push : List (Option Char) → Option Char → List (Option Char) := fun vs v => vs ++ [v]
    r.GoesOn stop 0 here [(some '1', here.advance 1)] ∧
      r.separatorAt 1 (here.advance 1) stop = some (.success (here.advance 2) ()) ∧
      r.item (here.advance 2) stop = some (.success (here.advance 2) none) ∧ r.bounds.min ≤ 2 ∧
      ∀ fuel s, r.drive push stop fuel 0 here [] = some s →
        ∃ w ws last, s = ((w :: ws).foldl push [some '1', none], r.close (3 + ws.length) last) := by
  intro r here stop push
  have hfirst : r.round 0 here stop = some (.success (here.advance 1) (some '1')) := by decide +kernel
  have hthird : r.round 2 (here.advance 2) stop = some (.success (here.advance 4) (some '2')) := by
    decide +kernel
  have hsep : r.separatorAt 1 (here.advance 1) stop = some (.success (here.advance 2) ()) := by
    decide +kernel
  have hitem : r.item (here.advance 2) stop = some (.success (here.advance 2) none) := by
    decide +kernel
  have hgoesOn : r.GoesOn stop 0 here [(some '1', here.advance 1)] := by
    refine ((GoesOn.nil rfl hfirst).concat hfirst).2 (mt halts_cons.1 ?_)
    rintro (hhalts | ⟨-, hst, -⟩)
    · exact not_halts_nil rfl (bind_eq_success.2 ⟨_, _, hsep, hitem⟩) hhalts
    · exact Nat.one_ne_zero hst
  obtain ⟨-, hothers⟩ := idle_item_ends r hgoesOn hsep hitem rfl (Nat.zero_le 2) push []
  refine ⟨hgoesOn, hsep, hitem, Nat.zero_le 2, hothers ?_⟩
  rintro (hnext | hmax | ⟨d, code, hfail⟩)
  · cases hnext
  · cases hmax
  · cases hthird.symm.trans hfail

/-- The digit between the commas reads nothing where it begins, and is not the last item for all that. -/
theorem idle_item_not_last :
    let r : Repetition (Option Char) := ⟨.any, char ',', digit.opt⟩
    let here := start "1,,2".toList
    let stop := finish "1,,2".toList
    r.item (here.advance 2) stop = some (.success (here.advance 2) none) ∧ r.bounds.min ≤ 2 ∧
      r.list here stop = some (.success (here.advance 4) [some '1', none, some '2']) ∧
      r.list here stop ≠ some (.success (here.advance 2) [some '1', none]) := by
  intro r here stop
  have hlist : r.list here stop = some (.success (here.advance 4) [some '1', none, some '2']) := by
    decide +kernel
  refine ⟨by decide +kernel, Nat.zero_le 2, hlist, ?_⟩
  rw [hlist]
  exact nofun

end Repetition

end PegParsing
