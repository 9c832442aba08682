import PegParsing.Proofs.Grammar.Greedy
import PegParsing.Proofs.Grammar.Rewriting
import PegParsing.Value.Equality

/-!
# A list with separators, written out

A repetition that asks for an item may be written as the item and, behind it, a repetition within
bounds that are one less, of a separator and an item as one. Round by round the two loops do the same
(`Repetition.drive_succ_eq`): where one of them runs a separator between rounds, the other one begins
a round with it. Only the first round differs, for the first item of the sequence is not part of a
loop; the two are the same again unless that item is empty.

`Grammar.repetition_expands` says that both end at one cursor, as successes or for want of items, and
that the list of the one is the first value in front of the list of the other. Of the separator nothing
is asked but that it is a skip, and of the item no more than that it read something the first time.
-/

namespace PegParsing

open Cursor PegParsing.Parser

/-- The bounds that are left behind one item. -/
def Bounds.pred (b : Bounds) : Bounds where
  min := b.min - 1
  max := b.max.map (· - 1)
  min_le := by
    intro n hn
    obtain ⟨m, hm, rfl⟩ := Option.map_eq_some_iff.1 hn
    exact Nat.sub_le_sub_right (b.min_le m hm) 1

theorem Bounds.full_pred (b : Bounds) (count : Nat) : b.pred.full count = b.full (count + 1) := by
  show (b.max.map (· - 1)).any (· ≤ count) = b.max.any (· ≤ count + 1)
  cases b.max with
  | none => rfl
  | some n => exact decide_eq_decide.2 Nat.sub_le_iff_le_add

/-! ## Two loops -/

namespace Repetition

variable {α σ : Type}

/-- What is repeated behind the first item: a separator and an item, one such pair behind the other. -/
def behindFirst (r : Repetition α) : Repetition α :=
  times r.bounds.pred (r.separator.bind fun _ => r.item)

variable {r : Repetition α} {here mid stop c : Cursor} {v : α}

theorem round_zero (r : Repetition α) : r.round 0 = r.item := rfl

theorem round_behindFirst (r : Repetition α) (count : Nat) :
    r.behindFirst.round count = r.round (count + 1) := by
  have hsep : r.behindFirst.separatorAt count = Parser.empty := by
    unfold separatorAt
    split <;> rfl
  unfold round
  rw [hsep]
  rfl

theorem stalls_behindFirst (r : Repetition α) (count : Nat) (here last : Cursor) :
    r.behindFirst.Stalls count here last ↔ r.Stalls (count + 1) here last :=
  and_congr_right fun _ => Nat.sub_le_iff_le_add

theorem close_behindFirst (r : Repetition α) (count : Nat) (here : Cursor) :
    r.behindFirst.close count here = r.close (count + 1) here := by
  have hmin : count < r.behindFirst.bounds.min ↔ count + 1 < r.bounds.min := Nat.lt_sub_iff_add_lt
  unfold close
  simp only [hmin]

/-- Behind the first item, the loops go on in step. -/
theorem drive_succ_eq (r : Repetition α) (push : σ → α → σ) (stop : Cursor) (fuel count : Nat)
    (here : Cursor) (acc : σ) : r.drive push stop fuel (count + 1) here acc =
      r.behindFirst.drive push stop fuel count here acc := by
  induction fuel generalizing count here acc with
  | zero => rfl
  | succ fuel ih =>
    rw [drive_succ, drive_succ, round_behindFirst]
    simp only [close_behindFirst, stalls_behindFirst, ih]
    rw [show r.behindFirst.bounds.full count = r.bounds.full (count + 1) from
      r.bounds.full_pred count]

theorem not_full_zero (hmin : 1 ≤ r.bounds.min) : r.bounds.full 0 = false := by
  refine Bool.eq_false_iff.2 fun hfull => ?_
  have hmax := (Bounds.full_iff fun n _ => Nat.zero_le n).1 hfull
  exact absurd (r.bounds.min_le 0 hmax) (Nat.not_le_of_lt hmin)

theorem advances_behindFirst (hr : r.Advances stop) : r.behindFirst.Advances stop := by
  intro count
  rw [round_behindFirst]
  exact hr (count + 1)

/-! ### The first item is not there -/

theorem accepted_of_first_fails (hmin : 1 ≤ r.bounds.min) {code : ErrorCode}
    (hfail : r.item here stop = some (.failure c code)) :
    r.accepted here stop = some ([], here) := by
  unfold accepted extend rounds
  rw [drive_succ, not_full_zero hmin, round_zero, hfail]
  exact congrArg (fun c => some ([], c)) (close_cursor r 0 here)

theorem list_of_first_fails (hmin : 1 ≤ r.bounds.min) {code : ErrorCode}
    (hfail : r.item here stop = some (.failure c code)) :
    r.list here stop = some (.failure here .tooFew) := by
  rw [list_eq_accepted, accepted_of_first_fails hmin hfail]
  exact congrArg (fun p => some (Parsed.map _ p)) (if_pos hmin)

/-! ### The first item is there and moved -/

section First

variable (hmin : 1 ≤ r.bounds.min) (hv : r.item here stop = some (.success mid v))
  (hmid : mid.offset ≠ here.offset)

include hmin hv hmid

/-- The first round takes the first item, and leaves the other rounds to the other loop. -/
theorem drive_of_first (push : σ → α → σ) (fuel : Nat) (acc : σ) :
    r.drive push stop (fuel + 1) 0 here acc =
      r.behindFirst.drive push stop fuel 0 mid (push acc v) := by
  rw [drive_succ, not_full_zero hmin, round_zero, hv, ← drive_succ_eq]
  exact if_neg fun hst : r.Stalls 0 here mid => hmid hst.1

/-- What the two loops come to is the same. -/
theorem extend_of_first {into : Container α σ} {acc : σ} {s s' : σ × Parsed Unit}
    (h : r.extend into here stop acc = some s)
    (h' : r.behindFirst.extend into mid stop (into.push acc v) = some s') : s = s' := by
  unfold extend rounds at h
  rw [drive_of_first hmin hv hmid] at h
  exact drive_unique h h'

theorem accepted_of_first {vs ws : List α} {last last' : Cursor}
    (h : r.accepted here stop = some (vs, last))
    (h' : r.behindFirst.accepted mid stop = some (ws, last')) : vs = v :: ws ∧ last = last' := by
  obtain ⟨⟨us, p⟩, hall, hp⟩ := Option.map_eq_some_iff.1 h
  have hothers := r.behindFirst.extend_eq_accepted mid stop ⟨[], fun vs v => vs ++ [v]⟩ [v]
  rw [h'] at hothers
  have hsame := extend_of_first hmin hv hmid hall hothers
  cases hp
  cases hsame
  exact ⟨foldl_append_singleton [v] ws, close_cursor _ _ _⟩

/-- Behind a first item that moved, the list of all items is the list of the others with it in
front. -/
theorem list_of_first {p q : Parsed (List α)} (h : r.list here stop = some p)
    (h' : r.behindFirst.list mid stop = some q) : p = q.map (v :: ·) := by
  rw [list_eq_accepted] at h h'
  obtain ⟨⟨vs, last⟩, hacc, rfl⟩ := Option.map_eq_some_iff.1 h
  obtain ⟨⟨ws, last'⟩, hacc', rfl⟩ := Option.map_eq_some_iff.1 h'
  obtain ⟨rfl, rfl⟩ := accepted_of_first hmin hv hmid hacc hacc'
  simp only [List.length_cons, close_behindFirst, Parsed.map_map]
  rfl

/-- With parts that stay in the window, the two loops come to an end together. -/
theorem finishes_list_iff (hr : r.Advances stop) :
    r.list.Finishes here stop ↔ r.behindFirst.list.Finishes mid stop := by
  let into : Container α (List α) := ⟨[], fun vs v => vs ++ [v]⟩
  -- a supply that is enough for both
  let fuel := r.rounds here stop + r.behindFirst.rounds mid stop
  have hall : r.drive into.push stop (fuel + 1) 0 here [] = r.extend into here stop [] :=
    hr.drive_eq_extend _ (Nat.le_succ_of_le (Nat.le_add_right _ _))
  have hothers : r.behindFirst.drive into.push stop fuel 0 mid [v] =
      r.behindFirst.extend into mid stop [v] :=
    (advances_behindFirst hr).drive_eq_extend _ (Nat.le_add_left _ _)
  have hsame : r.extend into here stop [] = r.behindFirst.extend into mid stop [v] := by
    rw [← hall, ← hothers]
    exact drive_of_first hmin hv hmid into.push fuel []
  unfold Finishes
  rw [list_eq_accepted, list_eq_accepted, Option.isSome_map, Option.isSome_map, accepted,
    Option.isSome_map, hsame, extend_eq_accepted, Option.isSome_map]

end First

/-! ### What is answered -/

theorem list_eq_failure {code : ErrorCode} (h : r.list here stop = some (.failure c code)) :
    code = .tooFew :=
  (reports_collect (Reports.of_map ⟨here, stop, c, h⟩)).2

theorem finishes_list_of_parts (hsep : r.separator.Advances stop) (hitem : r.item.Advances stop)
    (hfin : ∀ c, here.offset ≤ c.offset → c.offset ≤ max here.offset stop.offset →
      r.separator.Finishes c stop ∧ r.item.Finishes c stop) : r.list.Finishes here stop := by
  obtain ⟨vs, last, hrun⟩ := exists_run_of_parts hsep hitem hfin
  obtain ⟨es, hes, -⟩ := hrun.greedy fun n _ => Nat.zero_le n
  have hacc := hes.accepted_eq (advances_of_parts hsep hitem)
  exact finishes_of_eq_some (answer_of_accepted hacc).1

theorem ofKind_eq_list (r : Repetition Value) (k : Kind) (here stop : Cursor) :
    ofKind k r here stop = (r.list here stop).map (Parsed.map k.gathered) := by
  rw [ofKind_eq_accepted, list_eq_accepted, Option.map_map]
  congr 1
  funext ⟨vs, last⟩
  simp only [Function.comp_apply, Parsed.map_map]
  rfl

theorem finishes_ofKind_iff {r : Repetition Value} {k : Kind} {here stop : Cursor} :
    (ofKind k r).Finishes here stop ↔ r.list.Finishes here stop := by
  unfold Finishes
  rw [ofKind_eq_list, Option.isSome_map]

end Repetition

/-! ## Two grammars -/

/-- What a sequence yields whose parts are one grammar of that kind and a repetition of it. -/
def Kind.paired : Kind → Value → List Value → Value
  | skip, _, _ => .nothing
  | value, v, vs => .tuple [v, .list vs]

namespace Grammar

variable {R : String → Parser Value} {sep g : Grammar}

theorem kind_times_seq (b : Bounds) (hsep : sep.kind = .skip) :
    (times b (seq [sep, g])).kind = g.kind := by
  rw [times, kind, kind_seq_pair sep g hsep]

theorem denote_times_seq (b : Bounds) (hsep : sep.kind = .skip) :
    denote R (times b.pred (seq [sep, g])) =
      Repetition.ofKind g.kind
        (Repetition.behindFirst ⟨b, (denote R sep).skip, denote R g⟩) := by
  rw [times, denote, kind_seq_pair sep g hsep, denote_seq_pair sep g hsep,
    ← Chain.skip_bind (denote R sep) (denote R g)]
  rfl

theorem denote_seq_of_first {h : Grammar} {here mid stop : Cursor} {v : Value}
    (hv : denote R g here stop = some (.success mid v)) :
    denote R (seq [g, h]) here stop = (denote R h mid stop).map
      (Parsed.map fun w => .ofPayload (g.kind.collect v (h.kind.collect w []))) := by
  rw [seq, denote, parts, parts, parts, sequence_pair, map_both, denote_empty]
  simp only [both, succeed_bind]
  exact bind_of_success hv _

/-- A list with separators is its first item and a list of pairs of a separator and an item. If the
first item is not there, it fails for want of items. If it is there and has read something, the loops
go on in step. So where the list and the pairs come to an end, they end with one answer `o`, the list
with the first value in front, and the sequence of the first item and the pairs ends with it too. With
parts that stay in the window they come to an end together, and they do where these do. -/
theorem repetition_expands (R : String → Parser Value) {b : Bounds} (hmin : 1 ≤ b.min)
    {sep : Grammar} (hsep : sep.kind = .skip) (g : Grammar) (here stop : Cursor) :
    let r : Repetition Value := ⟨b, (denote R sep).skip, denote R g⟩
    let whole : Grammar := .repetition b sep g
    let others : Grammar := times b.pred (seq [sep, g])
    denote R whole = Repetition.ofKind g.kind r ∧
      denote R others = Repetition.ofKind g.kind r.behindFirst ∧
      (∀ c code, denote R g here stop = some (.failure c code) →
        denote R whole here stop = some (.failure here .tooFew)) ∧
      ∀ mid v, denote R g here stop = some (.success mid v) → mid.offset ≠ here.offset →
        (∀ {σ : Type} (push : σ → Value → σ) (fuel : Nat) (acc : σ),
          r.drive push stop (fuel + 1) 0 here acc =
            r.behindFirst.drive push stop fuel 0 mid (push acc v)) ∧
        ((denote R whole).Finishes here stop → (denote R others).Finishes mid stop →
          ∃ o : Parsed (List Value),
            denote R whole here stop = some (o.map fun vs => g.kind.gathered (v :: vs)) ∧
            denote R others mid stop = some (o.map g.kind.gathered) ∧
            denote R (seq [g, others]) here stop = some (o.map (g.kind.paired v)) ∧
            ∀ c code, o = .failure c code → code = .tooFew) ∧
        ((denote R sep).Advances stop → (denote R g).Advances stop →
          ((denote R whole).Finishes here stop ↔ (denote R others).Finishes mid stop) ∧
          ((∀ c, here.offset ≤ c.offset → c.offset ≤ max here.offset stop.offset →
            (denote R sep).Finishes c stop ∧ (denote R g).Finishes c stop) →
              (denote R whole).Finishes here stop)) := by
  intro r whole others
  have hwhole : denote R whole = Repetition.ofKind g.kind r := by
    show denote R (.repetition b sep g) = _
    rw [denote]
  have hothers : denote R others = Repetition.ofKind g.kind r.behindFirst :=
    denote_times_seq b hsep
  refine ⟨hwhole, hothers, fun c code hfail => ?_, fun mid v hv hmid => ⟨fun push fuel acc =>
    Repetition.drive_of_first hmin hv hmid push fuel acc, fun hfin hfin' => ?_,
    fun hsepAdv hgAdv => ?_⟩⟩
  · rw [hwhole, Repetition.ofKind_eq_list, Repetition.list_of_first_fails hmin hfail]
    rfl
  · rw [hwhole, Repetition.finishes_ofKind_iff] at hfin
    rw [hothers, Repetition.finishes_ofKind_iff] at hfin'
    obtain ⟨p, hp⟩ := hfin.exists
    obtain ⟨o, ho⟩ := hfin'.exists
    obtain rfl := Repetition.list_of_first hmin hv hmid hp ho
    refine ⟨o, ?_, ?_, ?_, fun c code hfail => Repetition.list_eq_failure (hfail ▸ ho)⟩
    · rw [hwhole, Repetition.ofKind_eq_list, hp, Option.map_some, Parsed.map_map]
      rfl
    · rw [hothers, Repetition.ofKind_eq_list, ho, Option.map_some]
    · rw [denote_seq_of_first hv, hothers, Repetition.ofKind_eq_list, ho, Option.map_some,
        Option.map_some, Parsed.map_map, kind_times_seq b.pred hsep]
      congr 2
      funext vs
      cases g.kind <;> rfl
  · have hr : r.Advances stop := Repetition.advances_of_parts hsepAdv.skip hgAdv
    rw [hwhole, hothers, Repetition.finishes_ofKind_iff, Repetition.finishes_ofKind_iff]
    refine ⟨Repetition.finishes_list_iff hmin hv hmid hr, fun hfin => ?_⟩
    exact Repetition.finishes_list_of_parts hsepAdv.skip hgAdv fun c hle hmax =>
      ⟨(hfin c hle hmax).1.skip, (hfin c hle hmax).2⟩

/-- Digits with commas between them. -/
theorem repetition_expands_digits :
    let R : String → Parser Value := fun _ => failAt .unknown
    let here : Cursor := ⟨"1,2;".toList, 0⟩
    let mid : Cursor := ⟨"1,2;".toList, 1⟩
    let stop : Cursor := ⟨"1,2;".toList, 4⟩
    let whole : Grammar := .repetition (.atLeast 1) (char ',') digit
    let others := times (Bounds.atLeast 1).pred (seq [char ',', digit])
    1 ≤ (Bounds.atLeast 1).min ∧ (char ',').kind = .skip ∧
      denote R digit here stop = some (.success mid (.char '1')) ∧ mid.offset ≠ here.offset ∧
      (denote R whole).Finishes here stop ∧ (denote R others).Finishes mid stop ∧
      (denote R (char ',')).Advances stop ∧ (denote R digit).Advances stop ∧
      ∃ o : Parsed (List Value),
        denote R whole here stop = some (o.map fun vs => .list (.char '1' :: vs)) ∧
        denote R others mid stop = some (o.map .list) ∧
        denote R (seq [digit, others]) here stop =
          some (o.map fun vs => .tuple [.char '1', .list vs]) := by
  intro R here mid stop whole others
  have hmin : 1 ≤ (Bounds.atLeast 1).min := Nat.le_refl 1
  have hskip : (char ',').kind = .skip := rfl
  have hv : denote R digit here stop = some (.success mid (.char '1')) := by decide +kernel
  have hR : ∀ name, (R name).Agrees (R name) := fun _ => agrees_failAt .unknown
  have hsep : (denote R (char ',')).Advances stop := (agrees hR (char ',')).advances stop
  have hdigit : (denote R digit).Advances stop := (agrees hR digit).advances stop
  obtain ⟨-, -, -, hfirst⟩ := repetition_expands R hmin hskip digit here stop
  obtain ⟨-, hsame, hfinishes⟩ := hfirst mid (.char '1') hv (by decide)
  have hwhole : (denote R whole).Finishes here stop :=
    (hfinishes hsep hdigit).2 fun c _ _ => ⟨(finishes_char ',').map _, (finishes_charIf _).map _⟩
  have hothers : (denote R others).Finishes mid stop := (hfinishes hsep hdigit).1.1 hwhole
  obtain ⟨o, hlist, hpairs, hseq, -⟩ := hsame hwhole hothers
  exact ⟨hmin, hskip, hv, by decide, hwhole, hothers, hsep, hdigit, o, hlist, hpairs, hseq⟩

end Grammar

end PegParsing
