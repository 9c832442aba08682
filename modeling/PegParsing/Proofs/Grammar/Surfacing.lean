import PegParsing.Catalog.Json
import PegParsing.Proofs.Grammar.Choice
import PegParsing.Proofs.Grammar.Sequence
import PegParsing.Proofs.Parser.Failures
import PegParsing.Value.Equality

/-!
# Which failures come to the surface

`Rules.Surfaces` says of a grammar, by its form alone, that it may fail with a given code. What cannot
fail hides the failures of its parts: an optional part, a repetition that asks for no items, a choice
with an alternative that cannot fail. Of a failing repetition only the want of items is seen, and of
lookahead only that it failed. For rules it is the least such property.

Every failure of a language is one that its form allows (`Language.failure_surfaces`). It is proved for
each combinator on its own, and for rules by induction on nested calls.
-/

namespace PegParsing

open PegParsing.Parser

/-- The terminal may fail with that code. Numbers have the codes that their parsers have in some
window: `IntFormat.failsWithin` and `RealFormat.failsWithin` name them. -/
def Terminal.Surfaces : Terminal → ErrorCode → Prop
  | empty, _ => False
  | literal _ _, code => code ∈ [.unexpectedEof, .expectedString]
  | char _, code | charIf _, code | spacedChar _, code => code ∈ [.unexpectedEof, .unexpectedChar]
  | eof, code => code = .expectedEof
  | eol, code => code = .expectedEndOfLine
  | fail _, code => code = .alwaysFail
  | sign policy, code => code ∈ policy.codes
  | integer format, code => format.parser.Reports code
  | real format, code => format.parser.Reports code
  | symbols _, code => code = .symbolNotFound

mutual

/-- The grammar may fail with that code. -/
inductive Rules.Surfaces (rules : Rules) : Grammar → ErrorCode → Prop
  | terminal {t : Terminal} {code : ErrorCode} : t.Surfaces code → Surfaces rules (.terminal t) code
  | separator {sep : Grammar} {parts : List Grammar} {code : ErrorCode} :
      Surfaces rules sep code → Surfaces rules (.sequence sep parts) code
  | part {sep g : Grammar} {parts : List Grammar} {code : ErrorCode} :
      g ∈ parts → Surfaces rules g code → Surfaces rules (.sequence sep parts) code
  | choice {gs : List Grammar} {g : Grammar} {code : ErrorCode} : g ∈ gs → Surfaces rules g code →
      (∀ h ∈ gs, MayFail rules h) → Surfaces rules (.choice gs) code
  | noChoice : Surfaces rules (.choice []) .unknown
  | variants {gs : List Grammar} {g : Grammar} {code : ErrorCode} : g ∈ gs → Surfaces rules g code →
      (∀ h ∈ gs, MayFail rules h) → Surfaces rules (.variants gs) code
  | noVariants : Surfaces rules (.variants []) .unknown
  | repetition {b : Bounds} {sep g : Grammar} :
      0 < b.min → Surfaces rules (.repetition b sep g) .tooFew
  | collect {into : Collection} {b : Bounds} {sep g : Grammar} :
      0 < b.min → Surfaces rules (.collect into b sep g) .tooFew
  | skip {g : Grammar} {code : ErrorCode} : Surfaces rules g code → Surfaces rules (.skip g) code
  | onlyWhere {must g : Grammar} {code : ErrorCode} :
      Surfaces rules g code → Surfaces rules (.onlyWhere must g) code
  | notFound {must g : Grammar} : MayFail rules must →
      Surfaces rules (.onlyWhere must g) .symbolNotFound
  | exceptWhere {non g : Grammar} {code : ErrorCode} :
      Surfaces rules g code → Surfaces rules (.exceptWhere non g) code
  | notExpected {non g : Grammar} : Surfaces rules (.exceptWhere non g) .symbolNotExpected
  | enabled {g : Grammar} {code : ErrorCode} :
      Surfaces rules g code → Surfaces rules (.enabled true g) code
  | disabled {g : Grammar} : Surfaces rules (.enabled false g) .alwaysFail
  | check {accepts : Value → Bool} {g : Grammar} {code : ErrorCode} :
      Surfaces rules g code → Surfaces rules (.check accepts g) code
  | refused {accepts : Value → Bool} {g : Grammar} : Surfaces rules (.check accepts g) .expectedType
  | map {f : Value → Value} {g : Grammar} {code : ErrorCode} :
      Surfaces rules g code → Surfaces rules (.map f g) code
  | apply {f : Value → Except ErrorCode Value} {g : Grammar} {code : ErrorCode} :
      Surfaces rules g code → Surfaces rules (.apply f g) code
  | applied {f : Value → Except ErrorCode Value} {g : Grammar} {v : Value} {code : ErrorCode} :
      f v = .error code → Surfaces rules (.apply f g) code
  | raw {g : Grammar} {code : ErrorCode} : Surfaces rules g code → Surfaces rules (.raw g) code
  | rule {name : String} {g : Grammar} {code : ErrorCode} : rules.find? name = some g →
      Surfaces rules g code → Surfaces rules (.rule name) code
  | noRule {name : String} : rules.find? name = .none → Surfaces rules (.rule name) .unknown

/-- The grammar may fail with some code. -/
inductive Rules.MayFail (rules : Rules) : Grammar → Prop
  | of_surfaces {g : Grammar} {code : ErrorCode} : Surfaces rules g code → MayFail rules g

end

/-! ## What surfaces is all there is -/

theorem Terminal.surfaces_of_reports {t : Terminal} {code : ErrorCode} (h : t.parser.Reports code) :
    t.Surfaces code := by
  cases t with
  | empty =>
    have hempty : (Terminal.ofSkip .empty).Reports code := h
    exact absurd hempty.of_map not_reports_succeed
  | literal case text => exact failsWithin_literal case _ code h.of_map
  | char c => exact failsWithin_char c code h.of_map
  | charIf accepts => exact failsWithin_charIf accepts code h.of_map
  | eof => exact List.mem_singleton.1 (failsWithin_eof code h.of_map)
  | eol => exact List.mem_singleton.1 (failsWithin_eol code h.of_map)
  | fail kind => exact h.of_failAt
  | spacedChar c => exact failsWithin_spacedChar c code h.of_map
  | sign policy => exact policy.failsWithin code h.of_map
  | integer format => exact h.of_map
  | real format => exact h.of_map
  | symbols table => exact List.mem_singleton.1 (table.failsWithin code h)

section Rules

variable {rules : Rules} {R : String → Parser Value} {code : ErrorCode}

namespace Repetition

theorem reports_ofKind {r : Repetition Value} {kind : Kind} (h : (ofKind kind r).Reports code) :
    0 < r.bounds.min ∧ code = .tooFew := by
  cases kind with
  | skip => exact reports_collect h.of_map
  | value => exact reports_collect h.of_map.of_map

theorem reports_gather {r : Repetition Value} {into : Collection} (h : (into.collect r).Reports code) :
    0 < r.bounds.min ∧ code = .tooFew := by
  cases into with
  | text => exact reports_collect h.of_map
  | list => exact reports_collect h.of_map.of_map
  | dict => exact reports_collect h.of_map

end Repetition

theorem Parser.not_reports_optOfKind {kind : Kind} {p : Parser Value} :
    ¬ (optOfKind kind p).Reports code := by
  cases kind with
  | skip => exact fun h => not_reports_opt h.of_map
  | value => exact fun h => not_reports_opt h.of_map

/-- Where all alternatives fail, one of them has the failure of the choice. -/
theorem Grammar.surfaces_of_alternatives {gs : List Grammar}
    (hgs : ∀ g ∈ gs, ∀ {code}, (denote R g).Reports code → rules.Surfaces g code)
    (h : (∃ p ∈ parsers R gs, p.Reports code) ∧ ∀ p ∈ parsers R gs, ∃ other, p.Reports other) :
    (∃ g ∈ gs, rules.Surfaces g code) ∧ ∀ g ∈ gs, rules.MayFail g := by
  rw [parsers_eq_map, List.forall_mem_map] at h
  obtain ⟨⟨p, hp, hcode⟩, hall⟩ := h
  obtain ⟨g, hg, rfl⟩ := List.mem_map.1 hp
  refine ⟨⟨g, hg, hgs g hg hcode⟩, fun g hg => ?_⟩
  obtain ⟨other, hother⟩ := hall g hg
  exact .of_surfaces (hgs g hg hother)

theorem Grammar.surfaces_of_reports
    (hrules : ∀ {name code}, (R name).Reports code → rules.Surfaces (.rule name) code) {g : Grammar}
    (h : (g.denote R).Reports code) : rules.Surfaces g code := by
  induction g generalizing code with
  | terminal t => exact .terminal (t.surfaces_of_reports h)
  | emit v => exact absurd h not_reports_succeed
  | sequence sep parts hsep hparts =>
    rcases h.of_map.of_sequence with h | ⟨q, hq, h⟩
    · exact .separator (hsep h)
    · rw [parts_eq_map] at hq
      obtain ⟨g, hg, rfl⟩ := List.mem_map.1 hq
      exact .part hg (hparts g hg h)
  | choice gs hgs =>
    by_cases hnil : gs = []
    · rw [hnil] at h ⊢
      rw [Reports.of_failAt (α := Value) h]
      exact .noChoice
    · obtain ⟨⟨g, hg, hcode⟩, hall⟩ := surfaces_of_alternatives hgs (h.of_choice (parsers_ne_nil hnil))
      exact .choice hg hcode hall
  | variants gs hgs =>
    by_cases hnil : gs = []
    · rw [hnil] at h ⊢
      rw [Reports.of_failAt (α := Value) h]
      exact .noVariants
    · obtain ⟨⟨g, hg, hcode⟩, hall⟩ :=
        surfaces_of_alternatives hgs (h.of_taggedChoice (parsers_ne_nil hnil))
      exact .variants hg hcode hall
  | repetition b sep g hsep hg =>
    obtain ⟨hmin, rfl⟩ := Repetition.reports_ofKind h
    exact .repetition hmin
  | collect into b sep g hsep hg =>
    obtain ⟨hmin, rfl⟩ := Repetition.reports_gather h
    exact .collect hmin
  | skip g hg => exact .skip (hg h.of_map.of_map)
  | opt g hg => exact absurd h not_reports_optOfKind
  | onlyWhere must g hmust hg =>
    rcases h.of_onlyWhere with h | ⟨⟨other, hm⟩, rfl⟩
    · exact .onlyWhere (hg h)
    · exact .notFound (.of_surfaces (hmust hm))
  | exceptWhere non g hnon hg =>
    rcases h.of_exceptWhere with h | rfl
    · exact .exceptWhere (hg h)
    · exact .notExpected
  | enabled on g hg =>
    rcases h.of_enabled with ⟨rfl, h⟩ | ⟨rfl, rfl⟩
    · exact .enabled (hg h)
    · exact .disabled
  | check accepts g hg =>
    rcases h.of_check with h | rfl
    · exact .check (hg h)
    · exact .refused
  | map f g hg => exact .map (hg h.of_map)
  | apply f g hg =>
    rcases h.of_apply with h | ⟨v, hv⟩
    · exact .apply (hg h)
    · exact .applied hv
  | raw g hg => exact .raw (hg h.of_map.of_raw)
  | rule name => exact hrules h

theorem Rules.surfaces_of_reports {n : Nat} {name : String} (h : (rules.parser n name).Reports code) :
    rules.Surfaces (.rule name) code := by
  induction n generalizing name code with
  | zero =>
    obtain ⟨here, stop, c, h⟩ := h
    cases h
  | succ n ih =>
    unfold Rules.parser at h
    cases hfind : rules.find? name with
    | none =>
      rw [hfind] at h
      rw [Reports.of_failAt (α := Value) h]
      exact .noRule hfind
    | some g =>
      rw [hfind] at h
      exact .rule hfind (Grammar.surfaces_of_reports ih h)

end Rules

/-- A language fails with no code but those that surface in its grammar. -/
theorem Language.failure_surfaces {l : Language} {here stop c : Cursor} {code : ErrorCode}
    (h : l.parser here stop = some (.failure c code)) : l.rules.Surfaces l.start code :=
  Grammar.surfaces_of_reports Rules.surfaces_of_reports ⟨here, stop, c, h⟩

/-- A list that is not closed. -/
theorem Catalog.Json.open_list_surfaces :
    let text := "[1,".toList
    document.parser ⟨text, 0⟩ ⟨text, 3⟩ = some (.failure ⟨text, 2⟩ .unexpectedChar) ∧
      document.rules.Surfaces document.start .unexpectedChar :=
  have h : document.parser ⟨"[1,".toList, 0⟩ ⟨"[1,".toList, 3⟩ =
      some (.failure ⟨"[1,".toList, 2⟩ .unexpectedChar) := by decide +kernel
  ⟨h, Language.failure_surfaces h⟩

end PegParsing
