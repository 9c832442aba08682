import PegParsing.Parser.Basic

/-!
# Sequences

The parts of a sequence run one behind the other, with a separator before each part but the first.
The first failure, of a part or of a separator, is the failure of the sequence. Parts that are
skips contribute nothing to the value; the values of the others are listed in order.

A sequence may also be built part by part; `parser_ofParts` says that this makes no difference.
-/

namespace PegParsing

/-- Whether a parser's value counts. -/
inductive Kind where
  | skip
  | value
  deriving DecidableEq, Repr

/-- Puts the value of one part in front of the values of those behind it. -/
def Kind.collect {α : Type} : Kind → α → List α → List α
  | skip, _, vs => vs
  | value, v, vs => v :: vs

/-- One part of a sequence. -/
structure Part (α : Type) where
  kind : Kind
  parser : Parser α

namespace Parser

variable {α σ : Type}

/-- The parts of a sequence that has begun: the separator runs before each of them. -/
def sequenceTail (sep : Parser σ) : List (Part α) → Parser (List α)
  | [] => succeed []
  | q :: qs =>
    sep.bind fun _ => q.parser.bind fun v => (sequenceTail sep qs).map (q.kind.collect v)

/-- The parts one behind the other, separated by `sep`. -/
def sequence (sep : Parser σ) : List (Part α) → Parser (List α)
  | [] => succeed []
  | q :: qs => q.parser.bind fun v => (sequenceTail sep qs).map (q.kind.collect v)

/-- Skips one behind the other. -/
def skips (ps : List (Parser Unit)) : Parser Unit :=
  (sequence empty (ps.map (Part.mk .skip))).skip

end Parser

/-! ## Part by part -/

/-- A sequence that grows at its end: the number of its parts and the parser of their values. -/
structure Chain (α : Type) where
  size : Nat
  parser : Parser (List α)

namespace Chain

variable {α σ : Type}

def start : Chain α := ⟨0, .succeed []⟩

/-- One more part, with the separator before it if it is not the first. -/
def append (sep : Parser σ) (c : Chain α) (q : Part α) : Chain α where
  size := c.size + 1
  parser := c.parser.bind fun vs =>
    (if c.size = 0 then .empty else sep.skip).bind fun _ =>
      q.parser.map fun v => vs ++ q.kind.collect v []

def ofParts (sep : Parser σ) (parts : List (Part α)) : Chain α := parts.foldl (append sep) start

theorem collect_nil_append (k : Kind) (v : α) (vs : List α) :
    k.collect v [] ++ vs = k.collect v vs := by
  cases k <;> rfl

theorem skip_bind {β : Type} (p : Parser σ) (f : Parser β) :
    (p.skip.bind fun _ => f) = p.bind fun _ => f := by
  simp only [Parser.skip, Parser.map_eq_bind, Parser.bind_assoc, Parser.succeed_bind]

theorem parser_foldl_append (sep : Parser σ) (parts : List (Part α)) (c : Chain α)
    (h : c.size ≠ 0) :
    (parts.foldl (append sep) c).parser =
      c.parser.bind fun vs => (Parser.sequenceTail sep parts).map (vs ++ ·) := by
  induction parts generalizing c with
  | nil =>
    simp only [List.foldl_nil, Parser.sequenceTail, Parser.map_eq_bind, Parser.succeed_bind,
      List.append_nil]
    exact (Parser.bind_succeed _).symm
  | cons q parts ih =>
    rw [List.foldl_cons, ih _ (Nat.succ_ne_zero _)]
    simp only [append, if_neg h, skip_bind, Parser.sequenceTail, Parser.map_eq_bind,
      Parser.bind_assoc, Parser.succeed_bind, List.append_assoc, collect_nil_append]

/-- A sequence is the same whether it is built at once or part by part. -/
theorem parser_ofParts (sep : Parser σ) (parts : List (Part α)) :
    (ofParts sep parts).parser = Parser.sequence sep parts := by
  cases parts with
  | nil => rfl
  | cons q parts =>
    rw [ofParts, List.foldl_cons, parser_foldl_append _ _ _ (Nat.succ_ne_zero _)]
    simp only [append, start, Parser.sequence, Parser.empty, Parser.succeed_bind, if_pos,
      Parser.map_eq_bind, Parser.bind_assoc, List.nil_append, collect_nil_append]

end Chain

end PegParsing
