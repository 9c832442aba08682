import PegParsing.Proofs.Grammar.Kinds
import PegParsing.Proofs.Parser.Distribution

/-!
# Grammars that may be rewritten

Two grammars of one kind with one parser are interchangeable: what is made of them looks at nothing
else. The parts that alternatives begin with may be put in front of the choice between what follows
them (`Grammar.interchangeable_factored`), and lookahead may be moved over choices and taken out of
the parser behind it (`Grammar.interchangeable_lookaheads`). Not only what is accepted stays the same,
but also where a failure is reported and as what.
-/

namespace PegParsing.Grammar

open PegParsing.Parser

/-- Whatever the rules, either of the grammars may stand for the other. -/
structure Interchangeable (g h : Grammar) : Prop where
  denote : ∀ R, g.denote R = h.denote R
  kind : g.kind = h.kind

variable {R : String → Parser Value}

/-! ## Left factoring -/

theorem kind_sequence_concat {g h : Grammar} (hkind : g.kind = h.kind) (sep : Grammar)
    (gs : List Grammar) : kind (.sequence sep (gs ++ [g])) = kind (.sequence sep (gs ++ [h])) := by
  simp only [kind, anyValue_append, anyValue, hkind]

theorem denote_sequence_choice (R : String → Parser Value) (sep : Grammar) {ps qs : List Grammar}
    {k : Kind} (hps : ps ≠ []) (hqs : qs ≠ []) (hkinds : ∀ q ∈ qs, q.kind = k) :
    denote R (.sequence sep (ps ++ [.choice qs])) =
      denote R (.choice (qs.map fun q => .sequence sep (ps ++ [q]))) := by
  have hparts : ∀ q, parts R (ps ++ [q]) = parts R ps ++ [⟨q.kind, denote R q⟩] := fun q =>
    parts_append R ps [q]
  calc denote R (.sequence sep (ps ++ [.choice qs]))
      = (Parser.sequence (denote R sep) (parts R ps ++ [⟨k, Parser.choice (parsers R qs)⟩])).map
          .ofPayload := by
        rw [denote, hparts, kind_choice_of_kinds hqs hkinds, denote]
    _ = (Parser.choice ((parsers R qs).map fun p =>
          Parser.sequence (denote R sep) (parts R ps ++ [⟨k, p⟩]))).map .ofPayload := by
        rw [sequence_choice _ (parts_ne_nil hps) k (parsers_ne_nil hqs)]
    _ = Parser.choice ((parsers R qs).map fun p =>
          (Parser.sequence (denote R sep) (parts R ps ++ [⟨k, p⟩])).map .ofPayload) := by
        rw [map_choice _ (mt List.map_eq_nil_iff.1 (parsers_ne_nil hqs)), List.map_map]
        rfl
    _ = denote R (.choice (qs.map fun q => .sequence sep (ps ++ [q]))) := by
        rw [denote, parsers_eq_map, parsers_eq_map, List.map_map, List.map_map]
        congr 1
        refine List.map_congr_left fun q hq => ?_
        rw [Function.comp_apply, Function.comp_apply, denote, hparts, hkinds q hq]

/-- A choice behind other parts is a choice between what follows them: the parts before it may be
written once, or in front of each alternative. -/
theorem interchangeable_factored (sep p : Grammar) (ps : List Grammar) (q : Grammar)
    (qs : List Grammar) (hkind : ∀ r ∈ qs, r.kind = q.kind) :
    Interchangeable (.sequence sep (p :: ps ++ [.choice (q :: qs)]))
      (.choice ((q :: qs).map fun r => .sequence sep (p :: ps ++ [r]))) := by
  have hkinds : ∀ r ∈ q :: qs, r.kind = q.kind := List.forall_mem_cons.2 ⟨rfl, hkind⟩
  have hne := List.cons_ne_nil q qs
  refine ⟨fun R => denote_sequence_choice R sep (List.cons_ne_nil p ps) hne hkinds, ?_⟩
  refine (kind_choice_of_kinds (mt List.map_eq_nil_iff.1 hne) fun g hg => ?_).symm
  obtain ⟨r, hr, rfl⟩ := List.mem_map.1 hg
  exact kind_sequence_concat ((hkinds r hr).trans (kind_choice_of_kinds hne hkinds).symm) sep _

/-- A digit in front of either of two texts. -/
theorem interchangeable_digit_texts :
    (∀ r ∈ [literal "ac"], r.kind = (literal "ab").kind) ∧
      Interchangeable (.sequence allSpace [digit, .choice [literal "ab", literal "ac"]])
        (.choice [.sequence allSpace [digit, literal "ab"],
          .sequence allSpace [digit, literal "ac"]]) := by
  have hkind : ∀ r ∈ [literal "ac"], r.kind = (literal "ab").kind := by
    simp [literal, kind, Terminal.kind]
  exact ⟨hkind, interchangeable_factored allSpace digit [] (literal "ab") [literal "ac"] hkind⟩

/-! ## Lookahead -/

theorem denote_empty (R : String → Parser Value) : denote R empty = succeed .nothing := rfl

theorem sequence_succeed {α σ : Type} (u : σ) (qs : List (Part α)) :
    Parser.sequence (succeed u) qs = sequenceTail (succeed u) qs := by
  cases qs <;> rfl

/-- A skip in front of another grammar leaves it its value. -/
theorem denote_seq_pair (p q : Grammar) (hskip : p.kind = .skip) :
    denote R (seq [p, q]) = (denote R p).bind fun _ => denote R q := by
  have hcollect : ∀ v vs, Kind.skip.collect v vs = (vs : List Value) := fun _ _ => rfl
  rw [seq, denote, parts, parts, parts, sequence_pair, map_both, denote_empty]
  simp only [both, hskip, hcollect, succeed_bind, map_ofPayload_collect]

theorem kind_seq_pair (p q : Grammar) (hskip : p.kind = .skip) : kind (seq [p, q]) = q.kind := by
  rw [seq, kind, anyValue, anyValue, anyValue, hskip]
  cases q.kind <;> rfl

theorem denote_lookahead_choice (R : String → Parser Value) {gs : List Grammar} (hne : gs ≠ []) :
    denote R (lookahead (.choice gs)) = denote R (.choice (gs.map lookahead)) := by
  rw [lookahead, denote, denote, denote, denote_empty, onlyWhere_choice (parsers_ne_nil hne),
    parsers_eq_map, parsers_eq_map, List.map_map, List.map_map]
  rfl

theorem denote_reject_choice (R : String → Parser Value) (gs : List Grammar) :
    denote R (reject (.choice gs)) = denote R (seq (gs.map reject)) := by
  have hparts : parts R (gs.map reject) = (parsers R gs).map fun p : Parser Value =>
      (⟨.skip, Parser.exceptWhere p (succeed .nothing)⟩ : Part Value) := by
    rw [parts_eq_map, parsers_eq_map, List.map_map, List.map_map]
    rfl
  rw [seq, denote, hparts, denote_empty, sequence_succeed, sequenceTail_reject, map_eq_bind,
    exceptWhere_bind, succeed_bind]
  rfl

/-- What is rejected twice is looked for, but for the failure. -/
theorem reject_reject_eq_success {m : Grammar} {here stop c : Cursor} {v : Value} :
    denote R (reject (reject m)) here stop = some (.success c v) ↔
      denote R (lookahead m) here stop = some (.success c v) := by
  rw [reject, denote, exceptWhere_eq_success, lookahead, denote, onlyWhere_eq_success, reject, denote]
  refine and_congr_left fun _ => ⟨?_, ?_⟩
  · rintro ⟨d, code, h⟩
    rcases hm : denote R m here stop with _ | ⟨e, other | u⟩
    · rw [exceptWhere_of_none hm] at h
      cases h
    · rw [exceptWhere_of_failure hm] at h
      cases h
    · exact ⟨e, u, rfl⟩
  · rintro ⟨d, u, hm⟩
    exact ⟨here, _, exceptWhere_of_success hm _⟩

theorem cursor_of_lookahead {m : Grammar} {here stop c : Cursor} {v : Value}
    (h : denote R (lookahead m) here stop = some (.success c v)) : c = here := by
  obtain ⟨-, hempty⟩ := onlyWhere_eq_success.1 h
  rw [denote_empty] at hempty
  exact (succeed_eq_success.1 hempty).1

/-- Lookahead moves over choices and out of the parser behind it, failures included. To reject a
rejection is to look ahead, but for what is said where it fails. -/
theorem interchangeable_lookaheads (g : Grammar) (gs : List Grammar) (m p : Grammar) :
    Interchangeable (reject (.choice (g :: gs))) (seq ((g :: gs).map reject)) ∧
      Interchangeable (lookahead (.choice (g :: gs))) (.choice ((g :: gs).map lookahead)) ∧
      Interchangeable (.onlyWhere m p) (seq [lookahead m, p]) ∧
      Interchangeable (.exceptWhere m p) (seq [reject m, p]) ∧
      ∀ R here stop c v,
        (denote R (reject (reject m)) here stop = some (.success c v) ↔
          denote R (lookahead m) here stop = some (.success c v)) ∧
        (denote R (lookahead m) here stop = some (.success c v) → c = here) := by
  have hskips : ∀ f : Grammar → Grammar, (∀ g, (f g).kind = .skip) →
      ∀ h ∈ (g :: gs).map f, h.kind = .skip := by
    intro f hf h hh
    obtain ⟨g, -, rfl⟩ := List.mem_map.1 hh
    exact hf g
  refine ⟨⟨fun R => denote_reject_choice R _, ?_⟩,
    ⟨fun R => denote_lookahead_choice R (List.cons_ne_nil g gs), ?_⟩,
    ⟨fun R => ?_, (kind_seq_pair (lookahead m) p rfl).symm⟩,
    ⟨fun R => ?_, (kind_seq_pair (reject m) p rfl).symm⟩,
    fun R here stop c v => ⟨reject_reject_eq_success, cursor_of_lookahead⟩⟩
  · exact (kind_sequence_eq_skip.2 (hskips reject fun _ => rfl)).symm
  · exact (kind_choice_of_kinds (List.cons_ne_nil _ _) (hskips lookahead fun _ => rfl)).symm
  · rw [denote_seq_pair _ _ rfl]
    exact onlyWhere_eq_bind _ _ _
  · rw [denote_seq_pair _ _ rfl]
    exact exceptWhere_eq_bind _ _ _

end PegParsing.Grammar
