import PegParsing.Proofs.Grammar.Choice
import PegParsing.Proofs.Grammar.Gathering
import PegParsing.Proofs.Grammar.Sequence
import PegParsing.Proofs.Parser.Outcomes

/-!
# What the kind of a grammar says of its values

A grammar whose kind is that of a skip yields nothing (`Grammar.nothing_of_skip`), whatever the
parsers of its rules yield. A sequence has the values of its parts that count
(`Grammar.exists_values_of_sequence`), and a sequence of one part has the value of that part, whether
it counts or not (`Grammar.map_ofPayload_collect`).
-/

namespace PegParsing

open PegParsing.Parser

/-! ## Values by kind -/

theorem Terminal.nothing_of_skip {t : Terminal} (hkind : t.kind = .skip) {v : Value}
    (h : t.parser.Yields v) : v = .nothing := by
  have hskip : ∀ {p : Parser Unit}, (Terminal.ofSkip p).Yields v → v = .nothing := fun h =>
    h.of_map.elim fun _ hv => hv.2
  cases t with
  | empty | literal | char | eof | eol | spacedChar | sign => exact hskip h
  | charIf | integer | real | symbols => cases hkind
  | fail kind =>
    obtain ⟨here, stop, c, h⟩ := h
    cases h

namespace Repetition

variable {r : Repetition Value} {w : Value}

/-- Both ways of putting items somewhere go by the one run. -/
theorem exists_items_of_accepted {here stop c : Cursor} {gathered : List Value → Value}
    (h : (r.accepted here stop).map (fun (vs, last) =>
      (r.close vs.length last).map fun _ => gathered vs) = some (.success c w)) :
    ∃ vs, r.bounds.Allows vs.length ∧ (∀ v ∈ vs, r.item.Yields v) ∧ w = gathered vs := by
  obtain ⟨⟨vs, last⟩, hacc, h⟩ := Option.map_eq_some_iff.1 h
  have hrun := r.run_of_accepted here stop hacc
  simp only at h
  rcases hclose : r.close vs.length last with ⟨d, code | u⟩
  · rw [hclose] at h
    cases h
  · rw [hclose] at h
    cases h
    exact ⟨vs, hrun.allows hclose, hrun.yields, rfl⟩

theorem exists_items_of_ofKind {kind : Kind} (h : (ofKind kind r).Yields w) :
    ∃ vs, r.bounds.Allows vs.length ∧ (∀ v ∈ vs, r.item.Yields v) ∧ w = kind.gathered vs := by
  obtain ⟨here, stop, c, h⟩ := h
  rw [ofKind_eq_accepted] at h
  exact exists_items_of_accepted h

theorem exists_items_of_gather {into : Collection} (h : (into.collect r).Yields w) :
    ∃ vs, r.bounds.Allows vs.length ∧ (∀ v ∈ vs, r.item.Yields v) ∧ w = into.gathered vs := by
  obtain ⟨here, stop, c, h⟩ := h
  rw [gather_eq_accepted] at h
  exact exists_items_of_accepted h

end Repetition

namespace Grammar

variable {R : String → Parser Value} {v w : Value}

/-- Whether alternatives of one kind count is seen from any of them. -/
theorem anyValue_of_kinds {gs : List Grammar} {k : Kind} (hne : gs ≠ [])
    (h : ∀ g ∈ gs, g.kind = k) : anyValue gs = (k == .value) := by
  induction gs with
  | nil => exact absurd rfl hne
  | cons g gs ih =>
    obtain ⟨rfl, hgs⟩ := List.forall_mem_cons.1 h
    by_cases hnil : gs = []
    · rw [hnil, anyValue, anyValue, Bool.or_false]
    · rw [anyValue, ih hnil hgs, Bool.or_self]

theorem kind_choice_of_kinds {gs : List Grammar} {k : Kind} (hne : gs ≠ [])
    (h : ∀ g ∈ gs, g.kind = k) : kind (.choice gs) = k := by
  rw [kind, anyValue_of_kinds hne h]
  cases k <;> rfl

/-- The parts of a sequence whose values count. -/
def counted (gs : List Grammar) : List Grammar := gs.filter (·.kind = .value)

theorem counted_eq_nil {gs : List Grammar} (h : ∀ g ∈ gs, g.kind = .skip) : counted gs = [] :=
  List.filter_eq_nil_iff.2 fun g hg => by simp [h g hg]

theorem filter_parts (R : String → Parser Value) (gs : List Grammar) :
    (parts R gs).filter (·.kind = .value) = parts R (counted gs) := by
  rw [parts_eq_map, parts_eq_map, List.filter_map]
  rfl

/-- The value of a sequence is made of those of its parts that count, in order. -/
theorem exists_values_of_sequence {sep : Grammar} {gs : List Grammar}
    (h : (denote R (.sequence sep gs)).Yields w) :
    ∃ vs, List.Forall₂ (fun g v => (denote R g).Yields v) (counted gs) vs ∧ w = .ofPayload vs := by
  obtain ⟨vs, hvs, rfl⟩ := h.of_map
  refine ⟨vs, ?_, rfl⟩
  have hparts := hvs.of_sequence
  rwa [filter_parts, parts_eq_map, List.forall₂_map_left_iff] at hparts

/-- By induction on the grammar: a skip is made of skips, or forgets a value. -/
theorem nothing_of_skip {g : Grammar} (hkind : g.kind = .skip) (h : (denote R g).Yields v) :
    v = .nothing := by
  induction g generalizing v with
  | terminal t => exact t.nothing_of_skip hkind h
  | sequence sep gs hsep hgs =>
    obtain ⟨vs, hvs, rfl⟩ := exists_values_of_sequence h
    rw [counted_eq_nil (kind_sequence_eq_skip.1 hkind)] at hvs
    rw [List.forall₂_nil_left_iff.1 hvs]
    rfl
  | choice gs hgs =>
    rw [kind, ite_eq_right_iff, imp_iff_not (by decide), Bool.not_eq_true, anyValue_eq_false] at hkind
    obtain ⟨p, hp, hv⟩ := h.of_choice
    rw [parsers_eq_map] at hp
    obtain ⟨g, hg, rfl⟩ := List.mem_map.1 hp
    exact hgs g hg (hkind g hg) hv
  | repetition b sep g hsep hg =>
    rw [kind] at hkind
    rw [denote, hkind] at h
    obtain ⟨vs, -, -, rfl⟩ := Repetition.exists_items_of_ofKind h
    rfl
  | skip g hg =>
    obtain ⟨u, -, rfl⟩ := h.of_map
    rfl
  | opt g hg =>
    rw [kind] at hkind
    rw [denote, hkind] at h
    obtain ⟨o, -, rfl⟩ := h.of_map
    rfl
  | onlyWhere must g hmust hg => exact hg hkind h.of_onlyWhere
  | exceptWhere non g hnon hg => exact hg hkind h.of_exceptWhere
  | enabled on g hg => exact hg hkind h.of_enabled.2
  | check accepts g hg => exact hg hkind h.of_check.1
  | emit | variants | collect | map | apply | raw | rule => cases hkind

/-- A sequence of one part has its value, since a skip's value is what no values make. -/
theorem map_ofPayload_collect (R : String → Parser Value) (g : Grammar) :
    ((denote R g).map fun v => .ofPayload (g.kind.collect v [])) = denote R g := by
  funext here stop
  unfold Parser.map
  rcases h : denote R g here stop with _ | ⟨c, code | v⟩
  · rfl
  · rfl
  · cases hkind : g.kind with
    | skip =>
      rw [nothing_of_skip hkind ⟨here, stop, c, h⟩]
      rfl
    | value => rfl

end Grammar

end PegParsing
