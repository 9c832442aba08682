import PegParsing.Grammar.Derived
import PegParsing.Proofs.Grammar.Locality
import PegParsing.Proofs.Parser.Sequence

/-!
# Sequences of grammars

`Grammar.denote_sequence_runs` says what sequences answer, however they are built. A sequence runs
its steps, and its value is made of the values that count (`Value.Packs`); added to it one by one, or
as a chain, parts make the same sequence; and two sequences, themselves in a sequence with the same
separator, end where the sequence of all the parts does, and as it does. Their values then stand in
two groups.
-/

namespace PegParsing

/-- The value of a sequence in which just `vs` count: nothing if there are none, one value as it is,
and several as a tuple. -/
inductive Value.Packs : List Value → Value → Prop
  | none : Packs [] .nothing
  | one {v : Value} : Packs [v] v
  | several {vs : List Value} : 2 ≤ vs.length → Packs vs (.tuple vs)

theorem Value.packs_iff {vs : List Value} {w : Value} : Packs vs w ↔ w = .ofPayload vs := by
  constructor
  · rintro (_ | _ | hlen)
    · rfl
    · rfl
    · rcases vs with _ | ⟨v, _ | ⟨v', vs⟩⟩
      · cases hlen
      · exact absurd hlen (Nat.not_succ_le_self 1)
      · rfl
  · rintro rfl
    rcases vs with _ | ⟨v, _ | ⟨v', vs⟩⟩
    · exact .none
    · exact .one
    · exact .several (Nat.le_add_left 2 vs.length)

namespace Grammar

open PegParsing.Parser

variable {R : String → Parser Value} {here stop c : Cursor}

/-- A grammar as a part of a sequence. -/
def part (R : String → Parser Value) (g : Grammar) : Part Value := ⟨g.kind, denote R g⟩

/-- The parsers that a sequence of `gs` runs one behind the other. -/
def steps (R : String → Parser Value) (sep : Grammar) (gs : List Grammar) : List (Part Value) :=
  Parser.steps (denote R sep) (gs.map (part R))

theorem parts_append (R : String → Parser Value) (gs hs : List Grammar) :
    parts R (gs ++ hs) = parts R gs ++ parts R hs := by
  simp only [parts_eq_map, List.map_append]

theorem parts_ne_nil {gs : List Grammar} (h : gs ≠ []) : parts R gs ≠ [] := by
  rw [parts_eq_map]
  exact mt List.map_eq_nil_iff.1 h

theorem anyValue_eq_false {gs : List Grammar} :
    anyValue gs = false ↔ ∀ g ∈ gs, g.kind = .skip := by
  induction gs with
  | nil => exact iff_of_true rfl nofun
  | cons g gs ih =>
    rw [anyValue, Bool.or_eq_false_iff, ih, List.forall_mem_cons]
    refine and_congr_left fun _ => ?_
    cases g.kind <;> decide

/-- A sequence counts if one of its parts does, whatever its separator is. -/
theorem kind_sequence_eq_skip {sep : Grammar} {gs : List Grammar} :
    kind (.sequence sep gs) = .skip ↔ ∀ g ∈ gs, g.kind = .skip := by
  rw [kind, ite_eq_right_iff, imp_iff_not (by decide), Bool.not_eq_true, anyValue_eq_false]

theorem foldl_append_sequence (sep : Grammar) (gs hs : List Grammar) :
    hs.foldl append (.sequence sep gs) = .sequence sep (gs ++ hs) := by
  induction hs generalizing gs with
  | nil => rw [List.append_nil]; rfl
  | cons h hs ih => rw [List.foldl_cons, append, ih, List.append_assoc, List.singleton_append]

theorem sequence_parts_eq_iff {sep : Grammar} {gs : List Grammar} {a : Option (Parsed (List Value))} :
    Parser.sequence (denote R sep) (parts R gs) here stop = a ↔ Runs stop (steps R sep gs) here a := by
  rw [parts_eq_map]
  exact sequence_eq_iff

theorem denote_sequence_eq_iff {sep : Grammar} {gs : List Grammar} {o : Option (Parsed Value)} :
    denote R (.sequence sep gs) here stop = o ↔
      ∃ a, Runs stop (steps R sep gs) here a ∧ o = a.map (Parsed.map .ofPayload) := by
  rw [denote]
  constructor
  · rintro rfl
    exact ⟨_, sequence_parts_eq_iff.1 rfl, rfl⟩
  · rintro ⟨a, ha, rfl⟩
    rw [← sequence_parts_eq_iff.2 ha]
    rfl

theorem denote_sequence_eq_success {sep : Grammar} {gs : List Grammar} {w : Value} :
    denote R (.sequence sep gs) here stop = some (.success c w) ↔
      ∃ vs, Runs stop (steps R sep gs) here (some (.success c vs)) ∧ Value.Packs vs w := by
  rw [denote_sequence_eq_iff]
  constructor
  · rintro ⟨_ | ⟨d, code | vs⟩, ha, h⟩
    · cases h
    · cases h
    · cases h
      exact ⟨vs, ha, Value.packs_iff.2 rfl⟩
  · rintro ⟨vs, ha, hw⟩
    exact ⟨_, ha, by rw [Value.packs_iff.1 hw]; rfl⟩

theorem denote_sequence_eq_failure {sep : Grammar} {gs : List Grammar} {code : ErrorCode} :
    denote R (.sequence sep gs) here stop = some (.failure c code) ↔
      Runs stop (steps R sep gs) here (some (.failure c code)) := by
  rw [denote_sequence_eq_iff]
  constructor
  · rintro ⟨_ | ⟨d, code' | vs⟩, ha, h⟩
    · cases h
    · cases h
      exact ha
    · cases h
  · exact fun ha => ⟨_, ha, rfl⟩

theorem denote_sequence_eq_none {sep : Grammar} {gs : List Grammar} :
    denote R (.sequence sep gs) here stop = none ↔ Runs stop (steps R sep gs) here none := by
  rw [denote_sequence_eq_iff]
  constructor
  · rintro ⟨_ | r, ha, h⟩
    · exact ha
    · cases h
  · exact fun ha => ⟨_, ha, rfl⟩

/-! ## Two groups -/

theorem sequence_parts_append (sep : Grammar) {gs hs : List Grammar} (hgs : gs ≠ []) (hhs : hs ≠ []) :
    Parser.sequence (denote R sep) (parts R (gs ++ hs)) =
      both (Parser.sequence (denote R sep) (parts R gs)) (denote R sep)
        (Parser.sequence (denote R sep) (parts R hs)) (· ++ ·) := by
  rw [parts_append, sequence_append _ (parts_ne_nil hgs) (parts_ne_nil hhs)]

theorem denote_sequence_append (sep : Grammar) {gs hs : List Grammar} (hgs : gs ≠ [])
    (hhs : hs ≠ []) : denote R (.sequence sep (gs ++ hs)) =
      both (Parser.sequence (denote R sep) (parts R gs)) (denote R sep)
        (Parser.sequence (denote R sep) (parts R hs)) fun vs ws => .ofPayload (vs ++ ws) := by
  rw [denote, sequence_parts_append sep hgs hhs, map_both]

/-- A group whose parts are all skips is a skip itself, and any other counts with its own value. -/
theorem denote_sequence_groups (sep : Grammar) (gs hs : List Grammar) :
    denote R (.sequence sep [.sequence sep gs, .sequence sep hs]) =
      both (Parser.sequence (denote R sep) (parts R gs)) (denote R sep)
        (Parser.sequence (denote R sep) (parts R hs)) fun vs ws =>
          .ofPayload ((kind (.sequence sep gs)).collect (.ofPayload vs)
            ((kind (.sequence sep hs)).collect (.ofPayload ws) [])) := by
  rw [denote]
  simp only [parts, denote, sequence_pair]
  simp only [both, map_eq_bind, bind_assoc, succeed_bind]

/-- The values that count in two groups are, in order, those that count in all. -/
theorem exists_runs_of_groups {sep : Grammar} {gs hs : List Grammar} (hgs : gs ≠ []) (hhs : hs ≠ [])
    {w : Value} (h : denote R (.sequence sep [.sequence sep gs, .sequence sep hs]) here stop =
      some (.success c w)) :
    ∃ vs ws v₁ v₂ mid next u,
      Runs stop (steps R sep gs) here (some (.success mid vs)) ∧
      denote R sep mid stop = some (.success next u) ∧
      Runs stop (steps R sep hs) next (some (.success c ws)) ∧
      Runs stop (steps R sep (gs ++ hs)) here (some (.success c (vs ++ ws))) ∧
      Value.Packs vs v₁ ∧ Value.Packs ws v₂ ∧
      Value.Packs
        (Part.payload ([.sequence sep gs, .sequence sep hs].map (part R)) [v₁, v₂]) w := by
  rw [denote_sequence_groups] at h
  obtain ⟨vs, ws, mid, next, u, hvs, hsep, hws, rfl⟩ := both_eq_success.1 h
  refine ⟨vs, ws, _, _, mid, next, u, sequence_parts_eq_iff.1 hvs, hsep, sequence_parts_eq_iff.1 hws,
    sequence_parts_eq_iff.1 ?_, Value.packs_iff.2 rfl, Value.packs_iff.2 rfl, Value.packs_iff.2 ?_⟩
  · rw [sequence_parts_append sep hgs hhs]
    exact both_eq_success.2 ⟨vs, ws, mid, next, u, hvs, hsep, hws, rfl⟩
  · simp only [List.map_cons, List.map_nil, Part.payload_cons]
    rfl

/-! ## The answer of a sequence -/

/-- A sequence has the answer of its steps, and its value is nothing if none of theirs counts, the one
that counts, or the tuple of those that count; it is a skip just if all of its parts are. It makes no
difference whether its parts are put into it at once or one by one; nor whether they are put into it in
two groups, but for the shape of the value. -/
theorem denote_sequence_runs (R : String → Parser Value) (sep : Grammar) (here stop : Cursor) :
    (∀ gs, (kind (.sequence sep gs) = .skip ↔ ∀ g ∈ gs, g.kind = .skip) ∧
      (denote R (.sequence sep gs) here stop = none ↔ Runs stop (steps R sep gs) here none) ∧
      (∀ c code, denote R (.sequence sep gs) here stop = some (.failure c code) ↔
        Runs stop (steps R sep gs) here (some (.failure c code))) ∧
      ∀ c w, denote R (.sequence sep gs) here stop = some (.success c w) ↔
        ∃ vs, Runs stop (steps R sep gs) here (some (.success c vs)) ∧ Value.Packs vs w) ∧
    (∀ gs hs, denote R (hs.foldl append (.sequence sep gs)) = denote R (.sequence sep (gs ++ hs)) ∧
      ((parts R hs).foldl (Chain.append (denote R sep))
        (Chain.ofParts (denote R sep) (parts R gs))).parser.map .ofPayload =
          denote R (.sequence sep (gs ++ hs))) ∧
    ∀ g gs h hs,
      let flat : Grammar := .sequence sep (g :: gs ++ h :: hs)
      let groups : List Grammar := [.sequence sep (g :: gs), .sequence sep (h :: hs)]
      (denote R flat).skip here stop = (denote R (.sequence sep groups)).skip here stop ∧
      ∀ c w, denote R (.sequence sep groups) here stop = some (.success c w) →
        ∃ vs ws v₁ v₂ mid next u,
          Runs stop (steps R sep (g :: gs)) here (some (.success mid vs)) ∧
          denote R sep mid stop = some (.success next u) ∧
          Runs stop (steps R sep (h :: hs)) next (some (.success c ws)) ∧
          Runs stop (steps R sep (g :: gs ++ h :: hs)) here (some (.success c (vs ++ ws))) ∧
          Value.Packs vs v₁ ∧ Value.Packs ws v₂ ∧
          Value.Packs (Part.payload (groups.map (part R)) [v₁, v₂]) w := by
  refine ⟨fun gs => ⟨kind_sequence_eq_skip, denote_sequence_eq_none,
      fun c code => denote_sequence_eq_failure, fun c w => denote_sequence_eq_success⟩,
    fun gs hs => ⟨?_, ?_⟩, fun g gs h hs => ⟨?_, ?_⟩⟩
  · rw [foldl_append_sequence]
  · rw [Chain.parser_foldl_ofParts, ← parts_append, denote]
  · rw [denote_sequence_append sep (List.cons_ne_nil g gs) (List.cons_ne_nil h hs),
      denote_sequence_groups, skip_both, skip_both]
  · exact fun c w => exists_runs_of_groups (List.cons_ne_nil g gs) (List.cons_ne_nil h hs)

end Grammar

end PegParsing
