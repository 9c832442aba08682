import Mathlib.Data.List.Induction
import PegParsing.Value

/-!
# Dictionaries

A dictionary made of entries has each key once and its keys in increasing order
(`increasing_ofList`), and holds under a key the value of the last entry with that key
(`get?_ofList`). These two determine it (`eq_of_get?_eq`).
-/

namespace PegParsing.Dict

variable {α : Type} {d d' : Dict α} {k l : String} {v : α}

/-- The keys stand in increasing order. -/
def Increasing (d : Dict α) : Prop := d.Pairwise fun e f => compare e.1 f.1 = .lt

/-- The value of the last entry with the key `k`. -/
def lastValue? (k : String) (es : List (String × α)) : Option α :=
  (es.reverse.find? (·.1 = k)).map Prod.snd

/-! ## Insertion -/

theorem mem_insert {e : String × α} (h : e ∈ d.insert k v) : e.1 = k ∨ e ∈ d := by
  induction d with
  | nil => exact .inl (congrArg Prod.fst (List.mem_singleton.1 h))
  | cons f d ih =>
    unfold insert at h
    split at h
    · rcases List.mem_cons.1 h with rfl | h
      · exact .inl rfl
      · exact .inr h
    · rcases List.mem_cons.1 h with rfl | h
      · exact .inl rfl
      · exact .inr (List.mem_cons_of_mem f h)
    · rcases List.mem_cons.1 h with rfl | h
      · exact .inr List.mem_cons_self
      · exact (ih h).imp_right (List.mem_cons_of_mem f)

theorem increasing_insert (h : d.Increasing) (k : String) (v : α) : (d.insert k v).Increasing := by
  induction d with
  | nil => exact List.pairwise_singleton _ _
  | cons f d ih =>
    obtain ⟨hf, hd⟩ := List.pairwise_cons.1 h
    unfold insert
    split
    · rename_i hlt
      refine List.pairwise_cons.2 ⟨List.forall_mem_cons.2 ⟨hlt, fun e he => ?_⟩, h⟩
      exact Std.TransCmp.lt_trans hlt (hf e he)
    · rename_i heq
      refine List.pairwise_cons.2 ⟨fun e he => ?_, hd⟩
      have hk : k = f.1 := Std.LawfulEqOrd.eq_of_compare heq
      show compare k e.1 = .lt
      rw [hk]
      exact hf e he
    · rename_i hgt
      refine List.pairwise_cons.2 ⟨fun e he => ?_, ih hd⟩
      rcases mem_insert he with hk | he
      · rw [hk]
        exact Std.OrientedCmp.lt_of_gt hgt
      · exact hf e he

/-! ## Dictionaries of entries -/

theorem ofList_append_singleton (es : List (String × α)) (e : String × α) :
    ofList (es ++ [e]) = (ofList es).insert e.1 e.2 := List.foldl_append

theorem increasing_ofList (es : List (String × α)) : (ofList es).Increasing := by
  induction es using List.reverseRecOn with
  | nil => exact List.Pairwise.nil
  | append_singleton es e ih =>
    rw [ofList_append_singleton]
    exact increasing_insert ih _ _

/-- Entries that are inserted one after the other: the last one with a key wins, also against what
the dictionary held before. -/
theorem get?_foldl_insert (es : List (String × α)) (d : Dict α) (k : String) :
    (es.foldl (fun d e => insert e.1 e.2 d) d).get? k = (lastValue? k es).or (d.get? k) := by
  induction es using List.reverseRecOn with
  | nil => exact Option.none_or.symm
  | append_singleton es e ih =>
    rw [List.foldl_append, List.foldl_cons, List.foldl_nil, get?_insert, ih]
    unfold lastValue?
    rw [List.reverse_append, List.reverse_singleton, List.singleton_append, List.find?_cons]
    by_cases hk : k = e.1
    · rw [if_pos hk, decide_eq_true hk.symm]
      rfl
    · rw [if_neg hk, decide_eq_false (Ne.symm hk)]

theorem get?_ofList (es : List (String × α)) (k : String) :
    (ofList es).get? k = lastValue? k es := by
  rw [ofList, get?_foldl_insert]
  exact Option.or_none

/-! ## Extensionality -/

theorem get?_eq_none (h : ∀ e ∈ d, e.1 ≠ k) : d.get? k = none := by
  induction d with
  | nil => rfl
  | cons e d ih =>
    obtain ⟨he, hd⟩ := List.forall_mem_cons.1 h
    unfold get?
    rw [if_neg (Ne.symm he)]
    exact ih hd

/-- A key that is below all others of an increasing dictionary is not one of them. -/
theorem get?_eq_none_of_lt {e : String × α} (h : Increasing (e :: d)) (hlt : compare k e.1 = .lt) :
    get? k (e :: d) = none := by
  obtain ⟨he, -⟩ := List.pairwise_cons.1 h
  refine get?_eq_none (List.forall_mem_cons.2 ⟨?_, fun f hf => ?_⟩)
  · rintro rfl
    rw [(Std.ReflOrd.compare_self : compare e.1 e.1 = .eq)] at hlt
    cases hlt
  · rintro rfl
    have htrans := Std.TransCmp.lt_trans hlt (he f hf)
    rw [(Std.ReflOrd.compare_self : compare f.1 f.1 = .eq)] at htrans
    cases htrans

theorem get?_cons_self (e : String × α) (d : Dict α) : get? e.1 (e :: d) = some e.2 := by
  unfold get?
  rw [if_pos rfl]

theorem get?_tail_eq_none {e : String × α} (h : Increasing (e :: d)) : d.get? e.1 = none := by
  obtain ⟨he, -⟩ := List.pairwise_cons.1 h
  refine get?_eq_none fun f hf heq => ?_
  have hlt := he f hf
  rw [heq, (Std.ReflOrd.compare_self : compare e.1 e.1 = .eq)] at hlt
  cases hlt

theorem eq_of_get?_eq (h : d.Increasing) (h' : d'.Increasing) (hget : ∀ k, d.get? k = d'.get? k) :
    d = d' := by
  induction d generalizing d' with
  | nil =>
    cases d' with
    | nil => rfl
    | cons f d' => exact absurd ((hget f.1).trans (get?_cons_self f d')) nofun
  | cons e d ih =>
    cases d' with
    | nil => exact absurd ((hget e.1).symm.trans (get?_cons_self e d)) nofun
    | cons f d' =>
      have he := get?_cons_self e d
      have hf := get?_cons_self f d'
      cases hc : compare e.1 f.1 with
      | lt =>
        rw [hget, get?_eq_none_of_lt h' hc] at he
        cases he
      | gt =>
        rw [← hget, get?_eq_none_of_lt h (Std.OrientedCmp.lt_of_gt hc)] at hf
        cases hf
      | eq =>
        have hkey : e.1 = f.1 := Std.LawfulEqOrd.eq_of_compare hc
        rw [hget, hkey, hf] at he
        obtain rfl : e = f := Prod.ext hkey (Option.some.inj he).symm
        refine congrArg (e :: ·) (ih (List.pairwise_cons.1 h).2 (List.pairwise_cons.1 h').2 fun k => ?_)
        by_cases hk : k = e.1
        · rw [hk, get?_tail_eq_none h, get?_tail_eq_none h']
        · have htail := hget k
          unfold get? at htail
          rwa [if_neg hk, if_neg hk] at htail

end PegParsing.Dict
