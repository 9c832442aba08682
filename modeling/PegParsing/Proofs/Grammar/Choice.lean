import PegParsing.Grammar.Derived
import PegParsing.Proofs.Grammar.Locality
import PegParsing.Proofs.Parser.Choice

/-!
# Choices between grammars

`Grammar.denote_choice_selects` says what the choices between given alternatives answer: the plain
one, those that convert the values of their alternatives, and the one that tells its alternatives
apart all follow the alternative that `Selects` names. To put alternatives into groups makes no
difference, neither to the parser nor to its kind.
-/

namespace PegParsing.Grammar

open PegParsing.Parser

variable {R : String → Parser Value}

theorem anyValue_append (gs hs : List Grammar) :
    anyValue (gs ++ hs) = (anyValue gs || anyValue hs) := by
  induction gs with
  | nil => rfl
  | cons g gs ih => rw [List.cons_append, anyValue, anyValue, ih, Bool.or_assoc]

theorem kind_choice_eq_value {gs : List Grammar} :
    (kind (.choice gs) == .value) = anyValue gs := by
  rw [kind]
  cases anyValue gs <;> rfl

/-- A choice counts as a value if one of its groups does. -/
theorem kind_choice_append (gs hs : List Grammar) :
    kind (.choice (gs ++ hs)) = kind (.choice [.choice gs, .choice hs]) := by
  rw [kind, kind, anyValue_append, anyValue, anyValue, anyValue, kind_choice_eq_value,
    kind_choice_eq_value, Bool.or_false]

theorem parsers_append (R : String → Parser Value) (gs hs : List Grammar) :
    parsers R (gs ++ hs) = parsers R gs ++ parsers R hs := by
  simp only [parsers_eq_map, List.map_append]

theorem parsers_ne_nil {gs : List Grammar} (h : gs ≠ []) : parsers R gs ≠ [] := by
  rw [parsers_eq_map]
  exact mt List.map_eq_nil_iff.1 h

theorem denote_choice_append {gs hs : List Grammar} (hgs : gs ≠ []) (hhs : hs ≠ []) :
    denote R (.choice (gs ++ hs)) = orElse (denote R (.choice gs)) (denote R (.choice hs)) := by
  simp only [denote, parsers_append]
  exact choice_append (parsers_ne_nil hgs) (parsers_ne_nil hhs)

/-- A choice follows the first alternative that succeeds, and where all fail the first of those that
came furthest. It does not finish just where the first that does not fail does not. -/
theorem denote_choice_selects (R : String → Parser Value) (g h : Grammar) (gs hs : List Grammar)
    (here stop : Cursor) :
    let alternatives := parsers R (g :: gs)
    (∀ o, denote R (.choice (g :: gs)) here stop = o ↔ ∃ i, Selects alternatives here stop i o) ∧
    (∀ (into : Nat → Value → Value) o, taggedChoice into alternatives here stop = o ↔
      ∃ i s, Selects alternatives here stop i s ∧ o = s.map (Parsed.map (into i))) ∧
    (∀ o, denote R (choiceConverted (g :: gs)) here stop = o ↔
      ∃ i s, Selects alternatives here stop i s ∧ o = s.map (Parsed.map .converted)) ∧
    (∀ o, denote R (.variants (g :: gs)) here stop = o ↔
      ∃ i s, Selects alternatives here stop i s ∧ o = s.map (Parsed.map (.variant i))) ∧
    denote R (.choice (g :: gs ++ h :: hs)) =
      denote R (.choice [.choice (g :: gs), .choice (h :: hs)]) ∧
    denote R (.choice (g :: gs ++ h :: hs)) =
      orElse (denote R (.choice (g :: gs))) (denote R (.choice (h :: hs))) ∧
    kind (.choice (g :: gs ++ h :: hs)) = kind (.choice [.choice (g :: gs), .choice (h :: hs)]) := by
  intro alternatives
  have hne : alternatives ≠ [] := parsers_ne_nil (List.cons_ne_nil g gs)
  have happend := denote_choice_append (R := R) (List.cons_ne_nil g gs) (List.cons_ne_nil h hs)
  refine ⟨fun o => ?_, fun into o => taggedChoice_eq_iff hne, fun o => ?_, fun o => ?_, happend,
    happend, kind_choice_append _ _⟩
  · rw [denote]
    exact choice_eq_iff hne
  · rw [choiceConverted, denote, denote]
    exact map_choice_eq_iff hne
  · rw [denote]
    exact taggedChoice_eq_iff hne

end PegParsing.Grammar
