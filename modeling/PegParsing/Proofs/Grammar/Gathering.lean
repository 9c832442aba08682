import PegParsing.Grammar.Basic
import PegParsing.Proofs.Parser.Finishing
import PegParsing.Proofs.Value.Dict

/-!
# What repetitions gather

A repetition may yield its items as a list, put them into a container of its own, or add them to a
container that is not empty. It is one loop all the same: what is accepted does not depend on where
it is put (`Repetition.drive_map`), so that there is one run behind the three
(`Repetition.extend_eq_accepted`). `Repetition.gathers` says what each of them makes of that run, and
that a container that was handed in keeps what it held and gets the accepted items behind it, be the
repetition a success or a failure.
-/

namespace PegParsing

/-! ## Items as characters and as entries -/

namespace Value

/-- The character that a value is. -/
def char? : Value → Option Char
  | char c => some c
  | _ => none

/-- The key and the value that a pair stands for. -/
def entry? : Value → Option (String × Value)
  | tuple [str k, v] => some (k, v)
  | _ => none

end Value

/-- What a repetition of that kind yields for its items. -/
def Kind.gathered : Kind → List Value → Value
  | skip, _ => .nothing
  | value, vs => .list vs

/-- What a collection holds when its items have been put into it. -/
def Collection.gathered : Collection → List Value → Value
  | text, vs => .str (String.ofList (vs.filterMap Value.char?))
  | list, vs => .list vs
  | dict, vs => .dict (Dict.ofList (vs.filterMap Value.entry?))

/-! ## Containers -/

namespace Container

variable {α : Type}

theorem extend_concat {σ : Type} (into : Container α σ) (acc : σ) (vs : List α) (v : α) :
    into.extend acc (vs ++ [v]) = into.push (into.extend acc vs) v := List.foldl_append

theorem extend_list (all : Array α) (vs : List α) : Container.list.extend all vs = all ++ vs.toArray :=
  List.foldl_push_eq_append'

theorem extend_text (s : String) (cs : List Char) :
    Container.text.extend s cs = s ++ String.ofList cs := by
  induction cs generalizing s with
  | nil => exact String.append_empty.symm
  | cons c cs ih =>
    show Container.text.extend (s.push c) cs = _
    rw [ih]
    apply String.toList_injective
    simp

theorem toList_extend_list (vs : List α) :
    (Container.list.extend Container.list.empty vs).toList = vs := by
  rw [extend_list]
  exact congrArg Array.toList (Array.empty_append)

end Container

namespace Collection

/-- Of the values pushed to a text, the characters are appended. -/
theorem foldl_pushChar (vs : List Value) (s : String) :
    vs.foldl pushChar s = s ++ String.ofList (vs.filterMap Value.char?) := by
  rw [← Container.extend_text, Container.extend, List.foldl_filterMap]
  congr 1
  funext s v
  cases v <;> rfl

theorem foldl_pushChar_map (cs : List Char) (s : String) :
    (cs.map Value.char).foldl pushChar s = s ++ String.ofList cs := by
  have hchars : (cs.map Value.char).filterMap Value.char? = cs := by
    rw [List.filterMap_map]
    exact List.filterMap_some
  rw [foldl_pushChar, hchars]

/-- Of the values pushed to a dictionary, the entries are inserted. -/
theorem foldl_pushEntry (vs : List Value) (d : Dict Value) :
    vs.foldl pushEntry d =
      (vs.filterMap Value.entry?).foldl (fun d e => Dict.insert e.1 e.2 d) d := by
  rw [List.foldl_filterMap]
  congr 1
  funext d v
  fun_cases pushEntry d v with
  | case1 => rfl
  | case2 v h => rw [Value.entry?.eq_2 v h]

end Collection

/-! ## One run behind all -/

namespace Repetition

open Cursor

variable {α σ τ : Type}

/-- The loop does not look at its accumulator: a function that goes with pushing goes with the loop. -/
theorem drive_map (r : Repetition α) {push : σ → α → σ} {push' : τ → α → τ} (f : σ → τ)
    (hf : ∀ s v, f (push s v) = push' (f s) v) (stop : Cursor) (fuel count : Nat) (here : Cursor)
    (acc : σ) : r.drive push' stop fuel count here (f acc) =
      (r.drive push stop fuel count here acc).map fun (s, p) => (f s, p) := by
  induction fuel generalizing count here acc with
  | zero => rfl
  | succ fuel ih =>
    rw [drive_succ, drive_succ]
    by_cases hfull : r.bounds.full count
    · rw [if_pos hfull, if_pos hfull]
      rfl
    rw [if_neg hfull, if_neg hfull]
    rcases r.round count here stop with _ | ⟨last, code | v⟩
    · rfl
    · rfl
    · simp only [Option.bind_some, ← hf]
      by_cases hst : r.Stalls count here last
      · rw [if_pos hst, if_pos hst]
        rfl
      · rw [if_neg hst, if_neg hst]
        exact ih _ _ _

theorem foldl_append_singleton (vs ws : List α) :
    ws.foldl (fun vs v => vs ++ [v]) vs = vs ++ ws := by
  induction ws generalizing vs with
  | nil => exact (List.append_nil vs).symm
  | cons w ws ih => rw [List.foldl_cons, ih, List.append_assoc, List.singleton_append]

/-- The run of a repetition: the items that it accepts, in order, and where it stands behind them. -/
def accepted (r : Repetition α) (here stop : Cursor) : Option (List α × Cursor) :=
  (r.extend ⟨[], fun vs v => vs ++ [v]⟩ here stop []).map fun (vs, p) => (vs, p.cursor)

theorem close_cursor (r : Repetition α) (count : Nat) (here : Cursor) :
    (r.close count here).cursor = here := by
  unfold close
  split <;> rfl

variable (r : Repetition α) (here stop : Cursor)

theorem extend_concat_eq_some {vs : List α} {p : Parsed Unit}
    (h : r.extend ⟨[], fun vs v => vs ++ [v]⟩ here stop [] = some (vs, p)) :
    Run r stop 0 here vs p.cursor ∧ p = r.close vs.length p.cursor := by
  obtain ⟨ws, last, hrun, hs⟩ := run_of_drive h
  rw [foldl_append_singleton, List.nil_append, Nat.zero_add] at hs
  cases hs
  rw [close_cursor]
  exact ⟨hrun, rfl⟩

theorem run_of_accepted {vs : List α} {last : Cursor} (h : r.accepted here stop = some (vs, last)) :
    Run r stop 0 here vs last := by
  obtain ⟨⟨ws, p⟩, hs, heq⟩ := Option.map_eq_some_iff.1 h
  cases heq
  exact (r.extend_concat_eq_some here stop hs).1

/-- Whatever the container, it gets the items of the one run. -/
theorem extend_eq_accepted (into : Container α σ) (acc : σ) : r.extend into here stop acc =
    (r.accepted here stop).map fun (vs, last) => (into.extend acc vs, r.close vs.length last) := by
  have hmap : r.extend into here stop acc = (r.extend ⟨[], fun vs v => vs ++ [v]⟩ here stop []).map
      fun (vs, p) => (into.extend acc vs, p) :=
    r.drive_map (into.extend acc) (into.extend_concat acc) stop _ 0 here []
  unfold accepted
  rw [hmap, Option.map_map]
  refine Option.map_congr fun ⟨vs, p⟩ hs => ?_
  exact congrArg (Prod.mk _) (r.extend_concat_eq_some here stop (Option.mem_def.1 hs)).2

theorem map_collect_eq_accepted {β : Type} (into : Container α σ) (f : σ → β) :
    (r.collect into).map f here stop = (r.accepted here stop).map fun (vs, last) =>
      (r.close vs.length last).map fun _ => f (into.extend into.empty vs) := by
  unfold Parser.map collect
  rw [extend_eq_accepted, Option.map_map, Option.map_map]
  congr 1
  funext ⟨vs, last⟩
  exact Parsed.map_map _ _ _

theorem map_list_eq_accepted {β : Type} (f : List α → β) :
    r.list.map f here stop = (r.accepted here stop).map fun (vs, last) =>
      (r.close vs.length last).map fun _ => f vs := by
  unfold list
  rw [Parser.map_map, map_collect_eq_accepted]
  simp only [Function.comp_apply, Container.toList_extend_list]

/-- There is a run if no round moves back and each finishes wherever the repetition can come. -/
theorem isSome_accepted (hr : r.Forward stop)
    (hround : ∀ count c, here.Reaches stop c → (r.round count).Finishes c stop) :
    (r.accepted here stop).isSome := by
  obtain ⟨vs, last, h⟩ : ∃ vs last, Run r stop 0 here vs last :=
    exists_run hr.advances (I := fun _ c => here.Reaches stop c) (fun count c hc _ => hround count c hc)
      (fun _ _ _ _ hc _ hmid _ => hc.trans (hr hmid)) (Reaches.refl here stop)
  have hlen := h.length_le hr.advances
  unfold accepted extend rounds
  rw [drive_of_run h (by omega)]
  rfl

omit here stop in
theorem map_close_eq_success {β : Type} {f : List α → β} {o : Option (List α × Cursor)} {c : Cursor}
    {u : β} : (o.map fun (vs, last) => (r.close vs.length last).map fun _ => f vs) =
      some (.success c u) ↔ ∃ vs, o = some (vs, c) ∧ r.bounds.min ≤ vs.length ∧ u = f vs := by
  constructor
  · intro h
    obtain ⟨⟨vs, last⟩, ho, hmap⟩ := Option.map_eq_some_iff.1 h
    simp only at hmap
    rcases hclose : r.close vs.length last with ⟨d, code | ⟨⟩⟩
    · rw [hclose] at hmap
      cases hmap
    · rw [hclose] at hmap
      cases hmap
      obtain ⟨rfl, hmin⟩ := close_eq_success.1 hclose
      exact ⟨vs, ho, hmin, rfl⟩
  · rintro ⟨vs, rfl, hmin, rfl⟩
    have hclose : r.close vs.length c = .success c () := close_eq_success.2 ⟨rfl, hmin⟩
    simp only [Option.map_some, hclose, Parsed.map_success]

theorem ofKind_eq_accepted (r : Repetition Value) (here stop : Cursor) (kind : Kind) :
    ofKind kind r here stop = (r.accepted here stop).map fun (vs, last) =>
      (r.close vs.length last).map fun _ => kind.gathered vs := by
  cases kind with
  | skip => exact r.map_collect_eq_accepted here stop .nothing fun _ => Value.nothing
  | value => exact r.map_list_eq_accepted here stop Value.list

theorem gather_eq_accepted (r : Repetition Value) (here stop : Cursor) (into : Collection) :
    into.collect r here stop = (r.accepted here stop).map fun (vs, last) =>
      (r.close vs.length last).map fun _ => into.gathered vs := by
  cases into with
  | text =>
    refine (r.map_collect_eq_accepted here stop ⟨"", Collection.pushChar⟩ Value.str).trans ?_
    simp only [Container.extend, Collection.foldl_pushChar, String.empty_append, Collection.gathered]
  | list => exact r.map_list_eq_accepted here stop Value.list
  | dict =>
    refine (r.map_collect_eq_accepted here stop ⟨[], Collection.pushEntry⟩ Value.dict).trans ?_
    simp only [Container.extend, Collection.foldl_pushEntry, Dict.ofList, Collection.gathered]

theorem gathers (r : Repetition Value) (here stop : Cursor) :
    (∀ vs last, r.accepted here stop = some (vs, last) → Run r stop 0 here vs last) ∧
      (r.Forward stop → (∀ count c, here.Reaches stop c → (r.round count).Finishes c stop) →
        (r.accepted here stop).isSome) ∧
      (∀ kind, ofKind kind r here stop = (r.accepted here stop).map fun (vs, last) =>
        (r.close vs.length last).map fun _ => kind.gathered vs) ∧
      (∀ into : Collection, into.collect r here stop = (r.accepted here stop).map fun (vs, last) =>
        (r.close vs.length last).map fun _ => into.gathered vs) ∧
      (∀ {σ : Type} (into : Container Value σ) (acc : σ), r.extend into here stop acc =
        (r.accepted here stop).map fun (vs, last) =>
          (into.extend acc vs, r.close vs.length last)) ∧
      (∀ (all : Array Value) vs, Container.list.extend all vs = all ++ vs.toArray) ∧
      (∀ s cs, Container.text.extend s cs = s ++ String.ofList cs) ∧
      ∀ es (d : Dict Value) k, (es.foldl (fun d e => Dict.insert e.1 e.2 d) d).get? k =
        (Dict.lastValue? k es).or (d.get? k) :=
  ⟨fun _ _ => r.run_of_accepted here stop, r.isSome_accepted here stop, r.ofKind_eq_accepted here stop,
    r.gather_eq_accepted here stop, r.extend_eq_accepted here stop, Container.extend_list,
    Container.extend_text, Dict.get?_foldl_insert⟩

end Repetition

end PegParsing
