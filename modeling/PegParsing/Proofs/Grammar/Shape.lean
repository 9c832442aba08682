import PegParsing.Catalog.Samples
import PegParsing.Proofs.Grammar.Kinds
import PegParsing.Proofs.Symbol.LongestMatch
import PegParsing.Value.Equality

/-!
# The shapes of values

`Rules.Fits` says of a value that it has the shape that a grammar gives its values, by the form of the
grammar alone. A sequence has as many values as it has parts that count, and wraps neither none nor
one of them; a repetition has no fewer and no more items than its bounds allow; lookahead and
conditions leave the value as it is. What stands between the parts of a sequence, and what is a skip,
does not matter to the shape.

Every value of a language fits its grammar (`Language.value_fits`). It is proved for each combinator on
its own, and for rules by induction on nested calls. Choices need not be of one kind, nor separators
skips.
-/

namespace PegParsing

open PegParsing.Parser Grammar

/-- The value is one that the terminal may yield. -/
def Terminal.Fits : Terminal → Value → Prop
  | charIf accepts, v => ∃ c, accepts c = true ∧ v = .char c
  | integer _, v => ∃ n, v = .int n
  | real format, v => ∃ x, v = .real format.format x
  | symbols table, v => ∃ key, (key, v) ∈ table.entries.toList
  | fail _, _ => False
  | empty, v | literal _ _, v | char _, v | eof, v | eol, v | spacedChar _, v | sign _, v => v = .nothing

/-- The value has the shape of those of the grammar. -/
inductive Rules.Fits (rules : Rules) : Grammar → Value → Prop
  | terminal {t : Terminal} {v : Value} : t.Fits v → Fits rules (.terminal t) v
  | emit {v : Value} : Fits rules (.emit v) v
  | unit {sep : Grammar} {parts : List Grammar} : counted parts = [] →
      Fits rules (.sequence sep parts) .nothing
  | single {sep g : Grammar} {parts : List Grammar} {v : Value} : counted parts = [g] →
      Fits rules g v → Fits rules (.sequence sep parts) v
  | tuple {sep : Grammar} {parts : List Grammar} {vs : List Value} : 2 ≤ (counted parts).length →
      List.Forall₂ (Fits rules) (counted parts) vs → Fits rules (.sequence sep parts) (.tuple vs)
  | choice {gs : List Grammar} {g : Grammar} {v : Value} : g ∈ gs → Fits rules g v →
      Fits rules (.choice gs) v
  | variants {gs : List Grammar} {i : Nat} {g : Grammar} {v : Value} : gs[i]? = some g →
      Fits rules g v → Fits rules (.variants gs) (.variant i v)
  | skips {b : Bounds} {sep g : Grammar} : g.kind = .skip → Fits rules (.repetition b sep g) .nothing
  | list {b : Bounds} {sep g : Grammar} {vs : List Value} : g.kind = .value → b.Allows vs.length →
      (∀ v ∈ vs, Fits rules g v) → Fits rules (.repetition b sep g) (.list vs)
  | collect {into : Collection} {b : Bounds} {sep g : Grammar} {vs : List Value} :
      b.Allows vs.length → (∀ v ∈ vs, Fits rules g v) →
      Fits rules (.collect into b sep g) (into.gathered vs)
  | skip {g : Grammar} : Fits rules (.skip g) .nothing
  | optSkip {g : Grammar} : g.kind = .skip → Fits rules (.opt g) .nothing
  | absent {g : Grammar} : g.kind = .value → Fits rules (.opt g) .absent
  | present {g : Grammar} {v : Value} : g.kind = .value → Fits rules g v →
      Fits rules (.opt g) (.present v)
  | onlyWhere {must g : Grammar} {v : Value} : Fits rules g v → Fits rules (.onlyWhere must g) v
  | exceptWhere {non g : Grammar} {v : Value} : Fits rules g v → Fits rules (.exceptWhere non g) v
  | enabled {g : Grammar} {v : Value} : Fits rules g v → Fits rules (.enabled true g) v
  | check {accepts : Value → Bool} {g : Grammar} {v : Value} : accepts v = true → Fits rules g v →
      Fits rules (.check accepts g) v
  | map {f : Value → Value} {g : Grammar} {v : Value} : Fits rules g v → Fits rules (.map f g) (f v)
  | apply {f : Value → Except ErrorCode Value} {g : Grammar} {v w : Value} : f v = .ok w →
      Fits rules g v → Fits rules (.apply f g) w
  | raw {g : Grammar} {s : String} : Fits rules (.raw g) (.str s)
  | rule {name : String} {g : Grammar} {v : Value} : rules.find? name = some g → Fits rules g v →
      Fits rules (.rule name) v

/-! ## Values fit -/

theorem SymbolTable.mem_of_yields {α : Type} {t : SymbolTable α} {v : α} (h : Yields t.parser v) :
    ∃ key, (key, v) ∈ t.entries.toList := by
  obtain ⟨here, stop, c, h⟩ := h
  unfold SymbolTable.parser at h
  split at h
  · rename_i key w hlookup
    cases h
    obtain ⟨-, before, after, hes, -⟩ := lookup_eq_some_iff.1 hlookup
    refine ⟨key, ?_⟩
    rw [hes]
    exact List.mem_append_right before List.mem_cons_self
  · cases h

theorem Terminal.fits_of_yields {t : Terminal} {v : Value} (h : t.parser.Yields v) : t.Fits v := by
  cases t with
  | empty | literal | char | eof | eol | spacedChar | sign => exact nothing_of_skip rfl h
  | charIf accepts =>
    obtain ⟨c, ⟨here, stop, d, hc⟩, rfl⟩ := h.of_map
    exact ⟨c, (charIf_eq_success.1 hc).2.1, rfl⟩
  | fail kind =>
    obtain ⟨here, stop, c, h⟩ := h
    cases h
  | integer format =>
    obtain ⟨n, -, rfl⟩ := h.of_map
    exact ⟨n, rfl⟩
  | real format =>
    obtain ⟨x, -, rfl⟩ := h.of_map
    exact ⟨x, rfl⟩
  | symbols table => exact table.mem_of_yields h

section Rules

variable {rules : Rules} {R : String → Parser Value} {v w : Value}

theorem Rules.Fits.sequence {sep : Grammar} {parts : List Grammar} {vs : List Value}
    (h : List.Forall₂ rules.Fits (counted parts) vs) :
    rules.Fits (.sequence sep parts) (.ofPayload vs) := by
  rcases hparts : counted parts with _ | ⟨g, _ | ⟨g', gs⟩⟩
  · rw [hparts, List.forall₂_nil_left_iff] at h
    rw [h]
    exact .unit hparts
  · rw [hparts] at h
    obtain ⟨v, _, hv, hnil, rfl⟩ := List.forall₂_cons_left_iff.1 h
    rw [List.forall₂_nil_left_iff.1 hnil]
    exact .single hparts hv
  · have hlen := h.length_eq
    have htwo : 2 ≤ (counted parts).length := by
      rw [hparts]
      exact Nat.le_add_left 2 gs.length
    rcases vs with _ | ⟨v, _ | ⟨v', vs⟩⟩
    · rw [hparts] at hlen
      cases hlen
    · rw [hparts] at hlen
      cases hlen
    · exact .tuple htwo h

theorem Grammar.fits_of_yields (hrules : ∀ {name v}, (R name).Yields v → rules.Fits (.rule name) v)
    {g : Grammar} (h : (g.denote R).Yields v) : rules.Fits g v := by
  induction g generalizing v with
  | terminal t => exact .terminal (t.fits_of_yields h)
  | emit w =>
    obtain ⟨here, stop, c, h⟩ := h
    obtain ⟨-, rfl⟩ := succeed_eq_success.1 h
    exact .emit
  | sequence sep parts hsep hparts =>
    obtain ⟨vs, hvs, rfl⟩ := exists_values_of_sequence h
    have hall : ∀ g ∈ counted parts, ∀ {v}, (denote R g).Yields v → rules.Fits g v := fun g hg =>
      hparts g (List.mem_filter.1 hg).1
    exact .sequence (((List.forall₂_and_left _ _).2 ⟨hall, hvs⟩).imp fun g v h => h.1 h.2)
  | choice gs hgs =>
    obtain ⟨p, hp, hv⟩ := h.of_choice
    rw [parsers_eq_map] at hp
    obtain ⟨g, hg, rfl⟩ := List.mem_map.1 hp
    exact .choice hg (hgs g hg hv)
  | variants gs hgs =>
    obtain ⟨i, p, w, hp, hw, rfl⟩ := h.of_taggedChoice
    rw [parsers_eq_map, List.getElem?_map] at hp
    obtain ⟨g, hg, rfl⟩ := Option.map_eq_some_iff.1 hp
    exact .variants hg (hgs g (List.mem_of_getElem? hg) hw)
  | repetition b sep g hsep hg =>
    obtain ⟨vs, hlen, hvs, rfl⟩ := Repetition.exists_items_of_ofKind h
    cases hkind : g.kind with
    | skip => exact .skips hkind
    | value => exact .list hkind hlen fun v hv => hg (hvs v hv)
  | collect into b sep g hsep hg =>
    obtain ⟨vs, hlen, hvs, rfl⟩ := Repetition.exists_items_of_gather h
    exact .collect hlen fun v hv => hg (hvs v hv)
  | skip g hg =>
    obtain ⟨u, -, rfl⟩ := h.of_map
    exact .skip
  | opt g hg =>
    rw [denote] at h
    cases hkind : g.kind with
    | skip =>
      rw [hkind] at h
      obtain ⟨o, -, rfl⟩ := h.of_map
      exact .optSkip hkind
    | value =>
      rw [hkind] at h
      obtain ⟨o, ho, rfl⟩ := h.of_map
      rcases ho.of_opt with rfl | ⟨v, hv, rfl⟩
      · exact .absent hkind
      · exact .present hkind (hg hv)
  | onlyWhere must g hmust hg => exact .onlyWhere (hg h.of_onlyWhere)
  | exceptWhere non g hnon hg => exact .exceptWhere (hg h.of_exceptWhere)
  | enabled on g hg =>
    obtain ⟨rfl, h⟩ := h.of_enabled
    exact .enabled (hg h)
  | check accepts g hg =>
    obtain ⟨h, hacc⟩ := h.of_check
    exact .check hacc (hg h)
  | map f g hg =>
    obtain ⟨v, hv, rfl⟩ := h.of_map
    exact .map (hg hv)
  | apply f g hg =>
    obtain ⟨v, hv, hf⟩ := h.of_apply
    exact .apply hf (hg hv)
  | raw g hg =>
    obtain ⟨cs, -, rfl⟩ := h.of_map
    exact .raw
  | rule name => exact hrules h

theorem Rules.fits_of_yields {n : Nat} {name : String} (h : (rules.parser n name).Yields v) :
    rules.Fits (.rule name) v := by
  induction n generalizing name v with
  | zero =>
    obtain ⟨here, stop, c, h⟩ := h
    cases h
  | succ n ih =>
    unfold Rules.parser at h
    cases hfind : rules.find? name with
    | none =>
      rw [hfind] at h
      obtain ⟨here, stop, c, h⟩ := h
      cases h
    | some g =>
      rw [hfind] at h
      exact .rule hfind (Grammar.fits_of_yields ih h)

/-- The values of a sequence with several parts that count, as a list. -/
theorem Rules.Fits.of_toVec {parts : List Grammar} (h : rules.Fits (toVec parts) v)
    (htwo : 2 ≤ (counted parts).length) :
    ∃ vs, v = .list vs ∧ vs.length = (counted parts).length ∧
      List.Forall₂ rules.Fits (counted parts) vs := by
  rw [toVec] at h
  cases h with
  | map h =>
    rw [seq] at h
    cases h with
    | unit hparts =>
      rw [hparts] at htwo
      exact absurd htwo (by decide)
    | single hparts =>
      rw [hparts] at htwo
      exact absurd htwo (Nat.not_succ_le_self 1)
    | @tuple _ _ vs _ hvs => exact ⟨vs, rfl, hvs.length_eq.symm, hvs⟩

end Rules

/-- What a language yields has the shape that its grammar says: nothing, for a skip, and a list of all
the values that count, for a sequence whose values are made into one. -/
theorem Language.value_fits {rules : Rules} {g : Grammar} {here stop c : Cursor} {v : Value}
    (h : Language.parser ⟨rules, g⟩ here stop = some (.success c v)) :
    rules.Fits g v ∧ (g.kind = .skip → v = .nothing) ∧
      ∀ parts, g = toVec parts → 2 ≤ (counted parts).length →
        ∃ vs, v = .list vs ∧ vs.length = (counted parts).length ∧
          List.Forall₂ rules.Fits (counted parts) vs := by
  have hyields : (g.denote (rules.parsers here stop)).Yields v := ⟨here, stop, c, h⟩
  have hfits := Grammar.fits_of_yields Rules.fits_of_yields hyields
  refine ⟨hfits, fun hkind => nothing_of_skip hkind hyields, ?_⟩
  rintro parts rfl htwo
  exact hfits.of_toVec htwo

/-- The four digits of a date, without the dash. -/
theorem Catalog.shortDate_fits :
    let text := "03-17".toList
    let digits : Value := .list [.char '0', .char '3', .char '1', .char '7']
    (Language.ofGrammar shortDate).parser ⟨text, 0⟩ ⟨text, 5⟩ = some (.success ⟨text, 5⟩ digits) ∧
      Rules.none.Fits shortDate digits ∧ (shortDate.kind = .skip → digits = .nothing) ∧
      ∀ parts, shortDate = toVec parts → 2 ≤ (counted parts).length →
        ∃ vs, digits = .list vs ∧ vs.length = (counted parts).length ∧
          List.Forall₂ Rules.none.Fits (counted parts) vs :=
  have h : (Language.ofGrammar shortDate).parser ⟨"03-17".toList, 0⟩ ⟨"03-17".toList, 5⟩ =
      some (.success ⟨"03-17".toList, 5⟩ (.list [.char '0', .char '3', .char '1', .char '7'])) := by
    decide +kernel
  ⟨h, Language.value_fits h⟩

end PegParsing
