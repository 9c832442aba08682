import Mathlib.Data.List.Forall2
import PegParsing.Parser.Choice
import PegParsing.Parser.Sequence
import PegParsing.Proofs.Cursor.Window

/-!
# Parsers that agree

Two parsers agree if, on windows that show the same, they end alike whenever both finish: with the
same outcome, and behind the same part of what is shown. A parser that agrees with itself looks at
nothing but its window, and ends at a place in it (`Agrees.reaches`).

Every combinator keeps agreement. A failure is a result like any other, so that the place a failure
is about is in the window too.
-/

namespace PegParsing

/-- The same outcome, behind the same part of what two windows show. -/
structure Parsed.Alike {α : Type} (stop here₁ here₂ : Cursor) (r₁ r₂ : Parsed α) : Prop where
  outcome : r₁.outcome = r₂.outcome
  inStep : Cursor.InStep stop here₁ here₂ r₁.cursor r₂.cursor

namespace Parser

open Cursor

variable {α β σ : Type}

/-- The parsers end alike on windows that show the same, whenever both finish. -/
def Agrees (p q : Parser α) : Prop :=
  ∀ ⦃here₁ stop₁ here₂ stop₂ : Cursor⦄, ShowsSame here₁ stop₁ here₂ stop₂ →
    ∀ ⦃r₁ r₂ : Parsed α⦄, p here₁ stop₁ = some r₁ → q here₂ stop₂ = some r₂ →
      r₁.Alike stop₁ here₁ here₂ r₂

/-- A parser that looks at its window alone ends in it. -/
theorem Agrees.reaches {p : Parser α} (h : p.Agrees p) {here stop : Cursor} {r : Parsed α}
    (hr : p here stop = some r) : here.Reaches stop r.cursor :=
  reaches_of_inStep (h (ShowsSame.refl here stop) hr hr).inStep

/-- On one window parsers that agree do not differ, if both finish. -/
theorem Agrees.eq {p q : Parser α} (h : p.Agrees q) {here stop : Cursor} {r s : Parsed α}
    (hr : p here stop = some r) (hs : q here stop = some s) : r = s := by
  obtain ⟨ho, t, -, hc, hd⟩ := h (ShowsSame.refl here stop) hr hs
  cases r
  cases s
  exact congrArg₂ Parsed.mk (hc.trans hd.symm) ho

/-! ## Results without reading -/

theorem agrees_succeed (v : α) : (succeed v).Agrees (succeed v) := by
  rintro here₁ stop₁ here₂ stop₂ - - - ⟨⟩ ⟨⟩
  exact ⟨rfl, InStep.refl _ _ _⟩

theorem agrees_failAt (code : ErrorCode) : (failAt code : Parser α).Agrees (failAt code) := by
  rintro here₁ stop₁ here₂ stop₂ - - - ⟨⟩ ⟨⟩
  exact ⟨rfl, InStep.refl _ _ _⟩

theorem agrees_empty : empty.Agrees empty := agrees_succeed ()

/-! ## One parser behind another -/

theorem Agrees.bind {p q : Parser α} {f g : α → Parser β} (h : p.Agrees q)
    (hf : ∀ v, (f v).Agrees (g v)) : (p.bind f).Agrees (q.bind g) := by
  intro here₁ stop₁ here₂ stop₂ hs r₁ r₂ h₁ h₂
  obtain ⟨⟨c₁, o⟩, hp, h₁⟩ := Option.bind_eq_some_iff.1 h₁
  obtain ⟨⟨c₂, o₂⟩, hq, h₂⟩ := Option.bind_eq_some_iff.1 h₂
  obtain ⟨rfl, hc⟩ := h hs hp hq
  cases o with
  | error code =>
    cases h₁
    cases h₂
    exact ⟨rfl, hc⟩
  | ok v =>
    obtain ⟨ho, hd⟩ := hf v (hs.inStep hc) h₁ h₂
    exact ⟨ho, hc.trans hd⟩

theorem Agrees.map {p q : Parser α} (h : p.Agrees q) (f : α → β) : (p.map f).Agrees (q.map f) := by
  rw [map_eq_bind, map_eq_bind]
  exact h.bind fun v => agrees_succeed (f v)

theorem Agrees.skip {p q : Parser α} (h : p.Agrees q) : p.skip.Agrees q.skip := h.map _

theorem Agrees.apply {p q : Parser α} (h : p.Agrees q) (f : α → Except ErrorCode β) :
    (p.apply f).Agrees (q.apply f) := by
  intro here₁ stop₁ here₂ stop₂ hs r₁ r₂ h₁ h₂
  obtain ⟨s₁, hp, rfl⟩ := Option.map_eq_some_iff.1 h₁
  obtain ⟨s₂, hq, rfl⟩ := Option.map_eq_some_iff.1 h₂
  obtain ⟨ho, hc⟩ := h hs hp hq
  exact ⟨congrArg (·.bind f) ho, hc⟩

theorem Agrees.check {p q : Parser α} (h : p.Agrees q) (accepts : α → Bool) :
    (p.check accepts).Agrees (q.check accepts) := h.apply _

theorem Agrees.opt {p q : Parser α} (h : p.Agrees q) : p.opt.Agrees q.opt := by
  intro here₁ stop₁ here₂ stop₂ hs r₁ r₂ h₁ h₂
  obtain ⟨⟨c₁, o⟩, hp, rfl⟩ := Option.map_eq_some_iff.1 h₁
  obtain ⟨⟨c₂, o₂⟩, hq, rfl⟩ := Option.map_eq_some_iff.1 h₂
  obtain ⟨rfl, hc⟩ := h hs hp hq
  cases o with
  | error code => exact ⟨rfl, InStep.refl _ _ _⟩
  | ok v => exact ⟨rfl, hc⟩

theorem Agrees.raw {p q : Parser α} (h : p.Agrees q) : p.raw.Agrees q.raw := by
  intro here₁ stop₁ here₂ stop₂ hs r₁ r₂ h₁ h₂
  obtain ⟨⟨c₁, o⟩, hp, rfl⟩ := Option.map_eq_some_iff.1 h₁
  obtain ⟨⟨c₂, o₂⟩, hq, rfl⟩ := Option.map_eq_some_iff.1 h₂
  obtain ⟨rfl, hc⟩ := h hs hp hq
  refine ⟨?_, hc⟩
  -- the text captured is the part that was read in both windows
  obtain ⟨t, ⟨s, ht⟩, rfl, rfl⟩ := hc
  have h₁ := textTo_advance ht.symm
  have h₂ := textTo_advance (hs.rest ▸ ht.symm)
  show o.map _ = o.map _
  simp only [h₁, h₂]

theorem Agrees.enabled {p q : Parser α} (h : p.Agrees q) (on : Bool) :
    (p.enabled on).Agrees (q.enabled on) := by
  cases on with
  | false => exact agrees_failAt _
  | true => exact h

/-! ## Lookahead -/

theorem Agrees.onlyWhere {m n : Parser β} {p q : Parser α} (hm : m.Agrees n) (h : p.Agrees q) :
    (onlyWhere m p).Agrees (onlyWhere n q) := by
  intro here₁ stop₁ here₂ stop₂ hs r₁ r₂ h₁ h₂
  obtain ⟨⟨c₁, o⟩, hp, h₁⟩ := Option.bind_eq_some_iff.1 h₁
  obtain ⟨⟨c₂, o₂⟩, hq, h₂⟩ := Option.bind_eq_some_iff.1 h₂
  obtain ⟨rfl, hc⟩ := hm hs hp hq
  cases o with
  | error code =>
    cases h₁
    cases h₂
    exact ⟨rfl, hc⟩
  | ok v => exact h hs h₁ h₂

theorem Agrees.exceptWhere {m n : Parser β} {p q : Parser α} (hm : m.Agrees n) (h : p.Agrees q) :
    (exceptWhere m p).Agrees (exceptWhere n q) := by
  intro here₁ stop₁ here₂ stop₂ hs r₁ r₂ h₁ h₂
  obtain ⟨⟨c₁, o⟩, hp, h₁⟩ := Option.bind_eq_some_iff.1 h₁
  obtain ⟨⟨c₂, o₂⟩, hq, h₂⟩ := Option.bind_eq_some_iff.1 h₂
  obtain ⟨rfl, -⟩ := hm hs hp hq
  cases o with
  | error code => exact h hs h₁ h₂
  | ok v =>
    cases h₁
    cases h₂
    exact ⟨rfl, InStep.refl _ _ _⟩

theorem Agrees.reject {p q : Parser α} (h : p.Agrees q) : (reject p).Agrees (reject q) :=
  h.exceptWhere agrees_empty

/-! ## Choice -/

theorem Agrees.orElse {p q p' q' : Parser α} (h : p.Agrees q) (h' : p'.Agrees q') :
    (orElse p p').Agrees (orElse q q') := by
  intro here₁ stop₁ here₂ stop₂ hs r₁ r₂ h₁ h₂
  obtain ⟨⟨c₁, o⟩, hp, h₁⟩ := Option.bind_eq_some_iff.1 h₁
  obtain ⟨⟨c₂, o₂⟩, hq, h₂⟩ := Option.bind_eq_some_iff.1 h₂
  obtain ⟨rfl, hc⟩ := h hs hp hq
  cases o with
  | ok v =>
    cases h₁
    cases h₂
    exact ⟨rfl, hc⟩
  | error code =>
    obtain ⟨⟨d₁, o'⟩, hp', rfl⟩ := Option.map_eq_some_iff.1 h₁
    obtain ⟨⟨d₂, o'₂⟩, hq', rfl⟩ := Option.map_eq_some_iff.1 h₂
    obtain ⟨rfl, hd⟩ := h' hs hp' hq'
    cases o' with
    | ok v => exact ⟨rfl, hd⟩
    | error other =>
      -- which failure came further is the same in both windows
      have hlt : c₁.offset < d₁.offset ↔ c₂.offset < d₂.offset := hc.offset_lt_iff hd
      show Parsed.Alike _ _ _
        (if c₁.offset < d₁.offset then Parsed.failure d₁ other else .failure c₁ code)
        (if c₂.offset < d₂.offset then .failure d₂ other else .failure c₂ code)
      by_cases h : c₁.offset < d₁.offset
      · rw [if_pos h, if_pos (hlt.1 h)]
        exact ⟨rfl, hd⟩
      · rw [if_neg h, if_neg (mt hlt.2 h)]
        exact ⟨rfl, hc⟩

theorem agrees_choice {ps qs : List (Parser α)} (h : List.Forall₂ Agrees ps qs) :
    (choice ps).Agrees (choice qs) := by
  induction h with
  | nil => exact agrees_failAt _
  | cons hp hps ih =>
    cases hps with
    | nil => exact hp
    | cons hp' hps => exact hp.orElse ih

theorem forall₂_zipIdx {ps qs : List (Parser α)} (h : List.Forall₂ Agrees ps qs)
    (tag : Nat → α → β) (n : Nat) :
    List.Forall₂ Agrees ((ps.zipIdx n).map fun (p, i) => p.map (tag i))
      ((qs.zipIdx n).map fun (p, i) => p.map (tag i)) := by
  induction h generalizing n with
  | nil => exact .nil
  | cons hp hps ih => exact .cons (hp.map _) (ih (n + 1))

theorem agrees_taggedChoice {ps qs : List (Parser α)} (h : List.Forall₂ Agrees ps qs)
    (tag : Nat → α → β) : (taggedChoice tag ps).Agrees (taggedChoice tag qs) :=
  agrees_choice (forall₂_zipIdx h tag 0)

/-! ## Sequences -/

/-- Parts of one kind whose parsers agree. -/
def PartAgrees (a b : Part α) : Prop :=
  a.kind = b.kind ∧ a.parser.Agrees b.parser

theorem agrees_sequenceTail {sep sep' : Parser σ} (hsep : sep.Agrees sep') {as bs : List (Part α)}
    (h : List.Forall₂ PartAgrees as bs) : (sequenceTail sep as).Agrees (sequenceTail sep' bs) := by
  induction h with
  | nil => exact agrees_succeed _
  | cons hab has ih =>
    obtain ⟨hkind, hparser⟩ := hab
    unfold sequenceTail
    rw [hkind]
    exact hsep.bind fun _ => hparser.bind fun v => ih.map _

theorem agrees_sequence {sep sep' : Parser σ} (hsep : sep.Agrees sep') {as bs : List (Part α)}
    (h : List.Forall₂ PartAgrees as bs) : (sequence sep as).Agrees (sequence sep' bs) := by
  cases h with
  | nil => exact agrees_succeed _
  | cons hab has =>
    obtain ⟨hkind, hparser⟩ := hab
    simp only [sequence, hkind]
    exact hparser.bind fun v => (agrees_sequenceTail hsep has).map _

theorem agrees_skips {ps : List (Parser Unit)} (h : ∀ p ∈ ps, p.Agrees p) :
    (skips ps).Agrees (skips ps) := by
  refine (agrees_sequence agrees_empty (List.forall₂_same.2 fun a ha => ?_)).skip
  obtain ⟨p, hp, rfl⟩ := List.mem_map.1 ha
  exact ⟨rfl, h p hp⟩

end Parser

end PegParsing
