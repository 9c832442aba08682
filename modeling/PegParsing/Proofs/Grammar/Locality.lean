import PegParsing.Grammar.Language
import PegParsing.Proofs.Parser.Locality

/-!
# Grammars look at their windows alone

`Grammar.induct` is induction on a grammar, with the statement for each part of a sequence and each
alternative of a choice. By it, a grammar denotes parsers that agree wherever the parsers of its
rules do (`Grammar.agrees`), so that by induction on nested calls the parsers of a language agree
with themselves, on whatever supplies they run (`Rules.agrees`).
-/

namespace PegParsing

namespace Grammar

@[elab_as_elim, induction_eliminator]
theorem induct {P : Grammar → Prop} (terminal : ∀ t, P (.terminal t)) (emit : ∀ v, P (.emit v))
    (sequence : ∀ sep parts, P sep → (∀ g ∈ parts, P g) → P (.sequence sep parts))
    (choice : ∀ gs, (∀ g ∈ gs, P g) → P (.choice gs))
    (variants : ∀ gs, (∀ g ∈ gs, P g) → P (.variants gs))
    (repetition : ∀ b sep g, P sep → P g → P (.repetition b sep g))
    (collect : ∀ into b sep g, P sep → P g → P (.collect into b sep g))
    (skip : ∀ g, P g → P (.skip g)) (opt : ∀ g, P g → P (.opt g))
    (onlyWhere : ∀ must g, P must → P g → P (.onlyWhere must g))
    (exceptWhere : ∀ non g, P non → P g → P (.exceptWhere non g))
    (enabled : ∀ on g, P g → P (.enabled on g)) (check : ∀ accepts g, P g → P (.check accepts g))
    (map : ∀ f g, P g → P (.map f g)) (apply : ∀ f g, P g → P (.apply f g))
    (raw : ∀ g, P g → P (.raw g)) (rule : ∀ name, P (.rule name)) (g : Grammar) : P g :=
  @Grammar.rec P (fun gs => ∀ g ∈ gs, P g) terminal emit sequence choice variants
    repetition collect skip opt onlyWhere exceptWhere enabled check map apply raw rule
    (fun _ h => nomatch h) (fun _ _ hg hgs => List.forall_mem_cons.2 ⟨hg, hgs⟩) g

theorem parsers_eq_map (R : String → Parser Value) (gs : List Grammar) :
    parsers R gs = gs.map (denote R) := by
  induction gs with
  | nil => rfl
  | cons g gs ih => rw [parsers, ih, List.map_cons]

theorem parts_eq_map (R : String → Parser Value) (gs : List Grammar) :
    parts R gs = gs.map fun g => ⟨g.kind, denote R g⟩ := by
  induction gs with
  | nil => rfl
  | cons g gs ih => rw [parts, ih, List.map_cons]

end Grammar

/-! ## Agreement -/

theorem Repetition.Agrees.ofKind {r r' : Repetition Value} (h : r.Agrees r') (kind : Kind) :
    (Repetition.ofKind kind r).Agrees (Repetition.ofKind kind r') := by
  cases kind with
  | skip => exact h.skip.map _
  | value => exact h.list.map _

theorem Repetition.Agrees.gather {r r' : Repetition Value} (h : r.Agrees r') (into : Collection) :
    (into.collect r).Agrees (into.collect r') := by
  cases into with
  | text => exact (h.collect _).map _
  | list => exact h.list.map _
  | dict => exact (h.collect _).map _

theorem Parser.Agrees.optOfKind {p q : Parser Value} (h : p.Agrees q) (kind : Kind) :
    (Parser.optOfKind kind p).Agrees (Parser.optOfKind kind q) := by
  cases kind with
  | skip => exact h.opt.map _
  | value => exact h.opt.map _

namespace Grammar

variable {R S : String → Parser Value}

theorem forall₂_parsers {gs : List Grammar} (h : ∀ g ∈ gs, (g.denote R).Agrees (g.denote S)) :
    List.Forall₂ Parser.Agrees (parsers R gs) (parsers S gs) := by
  rw [parsers_eq_map, parsers_eq_map, List.forall₂_map_left_iff, List.forall₂_map_right_iff]
  exact List.forall₂_same.2 h

theorem forall₂_parts {gs : List Grammar} (h : ∀ g ∈ gs, (g.denote R).Agrees (g.denote S)) :
    List.Forall₂ Parser.PartAgrees (parts R gs) (parts S gs) := by
  rw [parts_eq_map, parts_eq_map, List.forall₂_map_left_iff, List.forall₂_map_right_iff]
  exact List.forall₂_same.2 fun g hg => ⟨rfl, h g hg⟩

/-- Grammars denote parsers that agree if the parsers of their rules do. -/
theorem agrees (h : ∀ name, (R name).Agrees (S name)) (g : Grammar) :
    (g.denote R).Agrees (g.denote S) := by
  induction g with
  | terminal t => exact t.agrees
  | emit v => exact Parser.agrees_succeed v
  | sequence sep parts hsep hparts => exact (Parser.agrees_sequence hsep (forall₂_parts hparts)).map _
  | choice gs hgs => exact Parser.agrees_choice (forall₂_parsers hgs)
  | variants gs hgs => exact Parser.agrees_taggedChoice (forall₂_parsers hgs) _
  | repetition b sep g hsep hg =>
    refine Repetition.Agrees.ofKind ?_ g.kind
    exact ⟨rfl, hsep.skip, hg⟩
  | collect into b sep g hsep hg =>
    refine Repetition.Agrees.gather ?_ into
    exact ⟨rfl, hsep.skip, hg⟩
  | skip g hg => exact hg.skip.map _
  | opt g hg => exact hg.optOfKind g.kind
  | onlyWhere must g hmust hg => exact hmust.onlyWhere hg
  | exceptWhere non g hnon hg => exact hnon.exceptWhere hg
  | enabled on g hg => exact hg.enabled on
  | check accepts g hg => exact hg.check accepts
  | map f g hg => exact hg.map f
  | apply f g hg => exact hg.apply f
  | raw g hg => exact hg.raw.map _
  | rule name => exact h name

end Grammar

/-- More nested calls than are needed change nothing. -/
theorem Rules.agrees (rules : Rules) (m n : Nat) (name : String) :
    (rules.parser m name).Agrees (rules.parser n name) := by
  induction m generalizing n name with
  | zero =>
    intro here₁ stop₁ here₂ stop₂ hs r₁ r₂ h₁
    cases h₁
  | succ m ih =>
    cases n with
    | zero =>
      intro here₁ stop₁ here₂ stop₂ hs r₁ r₂ h₁ h₂
      cases h₂
    | succ n =>
      unfold Rules.parser
      cases rules.find? name with
      | none => exact Parser.agrees_failAt _
      | some g => exact g.agrees (ih n)

theorem Language.agrees (l : Language) : l.parser.Agrees l.parser :=
  fun _ _ _ _ hs _ _ h₁ h₂ => l.start.agrees (l.rules.agrees _ _) hs h₁ h₂

end PegParsing
