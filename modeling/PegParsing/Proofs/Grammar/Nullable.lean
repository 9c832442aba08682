import PegParsing.Proofs.Grammar.Locality
import PegParsing.Proofs.Parser.Success

/-!
# Grammars that may read nothing

`Rules.Nullable` says of a grammar, by its form alone, that it may succeed without reading anything.
A repetition may if it asks for no items, or if its item may and, where it asks for several, its
separator too. What lookahead finds does not matter.

The form tells the truth in the direction that termination needs: a success that read nothing is one
of a nullable grammar (`Rules.nullable_of_idles`). It is proved for each combinator on its own, and
for rules by induction on nested calls.
-/

namespace PegParsing

/-- The terminal may succeed without reading anything. -/
def Terminal.Nullable : Terminal → Prop
  | empty | eof | eol => True
  | literal _ text => text = ""
  | spacedChar c => Predicate.isBlank c = true
  | sign policy => policy ≠ .required
  | char _ | charIf _ | fail _ | integer _ | real _ | symbols _ => False

instance : DecidablePred Terminal.Nullable
  | .empty | .eof | .eol => isTrue trivial
  | .literal _ text => inferInstanceAs (Decidable (text = ""))
  | .spacedChar c => inferInstanceAs (Decidable (Predicate.isBlank c = true))
  | .sign policy => inferInstanceAs (Decidable (policy ≠ .required))
  | .char _ | .charIf _ | .fail _ | .integer _ | .real _ | .symbols _ => isFalse id

/-- The grammar may succeed without reading anything. -/
inductive Rules.Nullable (rules : Rules) : Grammar → Prop
  | terminal {t : Terminal} : t.Nullable → Nullable rules (.terminal t)
  | emit {v : Value} : Nullable rules (.emit v)
  | sequence {sep : Grammar} {parts : List Grammar} : (∀ g ∈ parts, Nullable rules g) →
      (1 < parts.length → Nullable rules sep) → Nullable rules (.sequence sep parts)
  | choice {gs : List Grammar} {g : Grammar} : g ∈ gs → Nullable rules g → Nullable rules (.choice gs)
  | variants {gs : List Grammar} {g : Grammar} :
      g ∈ gs → Nullable rules g → Nullable rules (.variants gs)
  | noItems {b : Bounds} {sep g : Grammar} : b.min = 0 → Nullable rules (.repetition b sep g)
  | repetition {b : Bounds} {sep g : Grammar} : Nullable rules g →
      (1 < b.min → Nullable rules sep) → Nullable rules (.repetition b sep g)
  | collectNone {into : Collection} {b : Bounds} {sep g : Grammar} :
      b.min = 0 → Nullable rules (.collect into b sep g)
  | collect {into : Collection} {b : Bounds} {sep g : Grammar} : Nullable rules g →
      (1 < b.min → Nullable rules sep) → Nullable rules (.collect into b sep g)
  | skip {g : Grammar} : Nullable rules g → Nullable rules (.skip g)
  | opt {g : Grammar} : Nullable rules (.opt g)
  | onlyWhere {must g : Grammar} : Nullable rules g → Nullable rules (.onlyWhere must g)
  | exceptWhere {non g : Grammar} : Nullable rules g → Nullable rules (.exceptWhere non g)
  | enabled {g : Grammar} : Nullable rules g → Nullable rules (.enabled true g)
  | check {accepts : Value → Bool} {g : Grammar} : Nullable rules g → Nullable rules (.check accepts g)
  | map {f : Value → Value} {g : Grammar} : Nullable rules g → Nullable rules (.map f g)
  | apply {f : Value → Except ErrorCode Value} {g : Grammar} :
      Nullable rules g → Nullable rules (.apply f g)
  | raw {g : Grammar} : Nullable rules g → Nullable rules (.raw g)
  | rule {name : String} {g : Grammar} : rules.find? name = some g → Nullable rules g →
      Nullable rules (.rule name)

open Cursor

variable {α β σ : Type} {here stop : Cursor}

namespace Parser

/-- The parser succeeds where it stands. -/
def Idles (p : Parser α) (here stop : Cursor) : Prop := ∃ v, p here stop = some (.success here v)

/-! ## Combinators -/

theorem Idles.of_map {p : Parser α} {f : α → β} (h : (p.map f).Idles here stop) :
    p.Idles here stop := by
  obtain ⟨w, hw⟩ := h
  obtain ⟨v, hv, -⟩ := map_eq_success.1 hw
  exact ⟨v, hv⟩

theorem Idles.of_apply {p : Parser α} {f : α → Except ErrorCode β} (h : (p.apply f).Idles here stop) :
    p.Idles here stop := by
  obtain ⟨w, hw⟩ := h
  obtain ⟨v, hv, -⟩ := apply_eq_success.1 hw
  exact ⟨v, hv⟩

theorem Idles.of_raw {p : Parser α} (h : p.raw.Idles here stop) : p.Idles here stop := by
  obtain ⟨w, hw⟩ := h
  obtain ⟨v, hv, -⟩ := raw_eq_success.1 hw
  exact ⟨v, hv⟩

/-- If nothing was read in all, neither part has read anything. -/
theorem idles_bind {p : Parser α} {f : α → Parser β} (hp : p.Agrees p) (hf : ∀ v, (f v).Agrees (f v))
    (h : (p.bind f).Idles here stop) : p.Idles here stop ∧ ∃ v, (f v).Idles here stop := by
  obtain ⟨w, hw⟩ := h
  obtain ⟨d, v, hpd, hfd⟩ := bind_eq_success.1 hw
  obtain rfl : d = here := (hp.reaches hpd).antisymm ((hf v).reaches hfd)
  exact ⟨⟨v, hpd⟩, v, w, hfd⟩

theorem idles_choice {ps : List (Parser α)} (h : (choice ps).Idles here stop) :
    ∃ p ∈ ps, p.Idles here stop := by
  obtain ⟨v, hv⟩ := h
  obtain ⟨p, hmem, hp⟩ := exists_of_choice hv
  exact ⟨p, hmem, v, hp⟩

theorem idles_sequenceTail {sep : Parser σ} (hsep : sep.Agrees sep) {qs : List (Part α)}
    (hqs : ∀ q ∈ qs, q.parser.Agrees q.parser) (h : (sequenceTail sep qs).Idles here stop) :
    (qs ≠ [] → sep.Idles here stop) ∧ ∀ q ∈ qs, q.parser.Idles here stop := by
  induction qs with
  | nil => exact ⟨fun hne => absurd rfl hne, nofun⟩
  | cons q qs ih =>
    obtain ⟨hq, hqs⟩ := List.forall_mem_cons.1 hqs
    have htail : (sequenceTail sep qs).Agrees (sequenceTail sep qs) :=
      agrees_sequenceTail hsep (List.forall₂_same.2 fun a ha => ⟨rfl, hqs a ha⟩)
    unfold sequenceTail at h
    obtain ⟨hs, _, h⟩ := idles_bind hsep (fun _ => hq.bind fun _ => htail.map _) h
    obtain ⟨hidle, _, h⟩ := idles_bind hq (fun _ => htail.map _) h
    exact ⟨fun _ => hs, List.forall_mem_cons.2 ⟨hidle, (ih hqs h.of_map).2⟩⟩

theorem idles_sequence {sep : Parser σ} (hsep : sep.Agrees sep) {qs : List (Part α)}
    (hqs : ∀ q ∈ qs, q.parser.Agrees q.parser) (h : (sequence sep qs).Idles here stop) :
    (1 < qs.length → sep.Idles here stop) ∧ ∀ q ∈ qs, q.parser.Idles here stop := by
  cases qs with
  | nil => exact ⟨fun hlt => absurd hlt (Nat.not_lt_zero 1), nofun⟩
  | cons q qs =>
    obtain ⟨hq, hqs⟩ := List.forall_mem_cons.1 hqs
    have htail : (sequenceTail sep qs).Agrees (sequenceTail sep qs) :=
      agrees_sequenceTail hsep (List.forall₂_same.2 fun a ha => ⟨rfl, hqs a ha⟩)
    unfold sequence at h
    obtain ⟨hidle, _, h⟩ := idles_bind hq (fun _ => htail.map _) h
    obtain ⟨hs, hall⟩ := idles_sequenceTail hsep hqs h.of_map
    refine ⟨fun hlt => hs ?_, List.forall_mem_cons.2 ⟨hidle, hall⟩⟩
    rintro rfl
    exact Nat.lt_irrefl 1 hlt

theorem idles_skips {ps : List (Parser Unit)} (hps : ∀ p ∈ ps, p.Agrees p)
    (h : (skips ps).Idles here stop) : ∀ p ∈ ps, p.Idles here stop := by
  intro p hp
  refine (idles_sequence agrees_empty ?_ h.of_map).2 ⟨.skip, p⟩ (List.mem_map_of_mem hp)
  intro q hq
  obtain ⟨p', hp', rfl⟩ := List.mem_map.1 hq
  exact hps p' hp'

end Parser

open PegParsing.Parser

namespace Repetition

variable {r : Repetition α}

/-- A run that reads nothing and accepts an item accepts one that reads nothing, and goes on from
where it stood. -/
theorem Run.idles_cons {count : Nat} {v : α} {vs : List α} (hr : r.Forward stop)
    (h : Run r stop count here (v :: vs) here) :
    (r.round count).Idles here stop ∧ (vs ≠ [] → Run r stop (count + 1) here vs here) := by
  cases h with
  | stalled _ hround _ => exact ⟨⟨v, hround⟩, fun hne => absurd rfl hne⟩
  | next _ hround _ hrun =>
    obtain rfl := (hr hround).antisymm (hrun.reaches hr)
    exact ⟨⟨v, hround⟩, fun _ => hrun⟩

theorem Agrees.idles_round (h : r.Agrees r) {count : Nat} (hidle : (r.round count).Idles here stop) :
    r.item.Idles here stop ∧ (count ≠ 0 → r.separator.Idles here stop) := by
  obtain ⟨hs, -, hi⟩ := idles_bind (h.separatorAt count) (fun _ => h.item) hidle
  refine ⟨hi, fun hne => ?_⟩
  unfold Repetition.separatorAt at hs
  rwa [if_neg hne] at hs

/-- Where items are asked for, reading nothing in all means that an item reads nothing, and where
several are, that a separator does. -/
theorem Agrees.idles_collect (h : r.Agrees r) {into : Container α σ}
    (hidle : (r.collect into).Idles here stop) : r.bounds.min = 0 ∨
      r.item.Idles here stop ∧ (1 < r.bounds.min → r.separator.Idles here stop) := by
  refine or_iff_not_imp_left.2 fun hmin => ?_
  obtain ⟨s, hs⟩ := hidle
  obtain ⟨vs, hrun, hle, -⟩ := (collect_eq_success (h.forward stop)).1 hs
  cases vs with
  | nil => exact absurd (Nat.le_zero.1 hle) hmin
  | cons v vs =>
    obtain ⟨hfirst, hrest⟩ := hrun.idles_cons (h.forward stop)
    refine ⟨(h.idles_round hfirst).1, fun hlt => ?_⟩
    cases vs with
    | nil => exact absurd hlt (Nat.not_lt.2 hle)
    | cons w vs =>
      obtain ⟨hsecond, -⟩ := (hrest (List.cons_ne_nil w vs)).idles_cons (h.forward stop)
      exact (h.idles_round hsecond).2 Nat.one_ne_zero

theorem Agrees.idles_ofKind {r : Repetition Value} (h : r.Agrees r) {kind : Kind}
    (hidle : (Repetition.ofKind kind r).Idles here stop) : r.bounds.min = 0 ∨
      r.item.Idles here stop ∧ (1 < r.bounds.min → r.separator.Idles here stop) := by
  cases kind with
  | skip => exact h.idles_collect hidle.of_map
  | value => exact h.idles_collect hidle.of_map.of_map

theorem Agrees.idles_gather {r : Repetition Value} (h : r.Agrees r) {into : Collection}
    (hidle : (into.collect r).Idles here stop) : r.bounds.min = 0 ∨
      r.item.Idles here stop ∧ (1 < r.bounds.min → r.separator.Idles here stop) := by
  cases into with
  | text => exact h.idles_collect hidle.of_map
  | list => exact h.idles_collect hidle.of_map.of_map
  | dict => exact h.idles_collect hidle.of_map

end Repetition

/-! ## Terminals -/

theorem Parser.not_idles_charIf {accepts : Char → Bool} : ¬ (charIf accepts).Idles here stop := by
  rintro ⟨v, hv⟩
  obtain ⟨-, -, h⟩ := charIf_eq_success.1 hv
  have hoff := congrArg Cursor.offset h
  have hpos := v.utf8Size_pos
  rw [advance_offset] at hoff
  omega

theorem Parser.not_idles_char {c : Char} : ¬ (char c).Idles here stop :=
  fun h => not_idles_charIf h.of_map

theorem Parser.eq_nil_of_idles_literal {case : LetterCase} {text : List Char}
    (h : (literal case text).Idles here stop) : text = [] := by
  obtain ⟨v, hv⟩ := h
  obtain ⟨w, s, -, hw, hc⟩ := literal_eq_success_iff.1 hv
  have hoff := congrArg Cursor.offset hc
  rw [advance_offset] at hoff
  obtain rfl : w = [] := Text.byteLength_eq_zero.1 (by omega)
  exact List.map_eq_nil_iff.1 hw.symm

theorem Parser.isBlank_of_idles_spacedChar {c : Char} (h : (spacedChar c).Idles here stop) :
    Predicate.isBlank c = true := by
  by_contra hc
  unfold spacedChar at h
  rw [if_neg hc] at h
  have hrest : ((char c).bind fun _ => textSpace).Agrees ((char c).bind fun _ => textSpace) :=
    (agrees_char c).bind fun _ => agrees_textSpace
  obtain ⟨-, -, h⟩ := idles_bind agrees_textSpace (fun _ => hrest) h
  exact not_idles_char (idles_bind (agrees_char c) (fun _ => agrees_textSpace) h).1

theorem SignPolicy.ne_required_of_idles {s : SignPolicy} (h : s.parser.Idles here stop) :
    s ≠ .required := by
  rintro rfl
  obtain ⟨p, hmem, hp⟩ := idles_choice h
  simp only [List.mem_cons, List.not_mem_nil, or_false] at hmem
  rcases hmem with rfl | rfl
  · exact not_idles_char hp
  · exact not_idles_char hp

theorem IntFormat.not_idles {f : IntFormat} : ¬ f.parser.Idles here stop := by
  intro h
  have hdigits := agrees_times f.digits (agrees_charIf f.radix.isDigit)
  have hrun := idles_skips (by simp [f.sign.agrees, hdigits.skip]) h.of_apply.of_raw
    (times f.digits (charIf f.radix.isDigit)).skip (by simp)
  have hpos := f.digits_pos
  rcases hdigits.idles_collect hrun with hmin | ⟨hidle, -⟩
  · exact absurd hmin (Nat.ne_of_gt hpos)
  · exact not_idles_charIf hidle

/-- A number has a digit. -/
theorem RealFormat.not_idles_number {f : RealFormat} : ¬ f.number.Idles here stop := by
  rintro ⟨x, hx⟩
  obtain ⟨⟨last, code | image⟩, himage, h⟩ := Option.map_eq_some_iff.1 hx
  · cases h
  obtain ⟨-, hraw⟩ := exceptWhere_eq_success.1 himage
  obtain ⟨-, -, htext⟩ := raw_eq_success.1 hraw
  have hread : f.read here stop last image = .success here x := h
  unfold RealFormat.read at hread
  simp only at hread
  split at hread
  · cases hread
  rename_i hdigit
  split at hread
  · cases hread
  split at hread
  · cases hread
  · obtain ⟨rfl, -⟩ := Parsed.mk.inj hread
    have hnil : image = [] := by
      rw [htext]
      exact rest_of_atEnd (decide_eq_true (Nat.le_refl _))
    rw [hnil] at hdigit
    exact hdigit rfl

theorem SymbolTable.not_idles {t : SymbolTable α} : ¬ Idles t.parser here stop := by
  rintro ⟨x, hx⟩
  unfold SymbolTable.parser at hx
  cases hl : t.lookup (here.rest stop) with
  | none =>
    rw [hl] at hx
    cases hx
  | some e =>
    rw [hl] at hx
    obtain ⟨hc, -⟩ := Parsed.mk.inj (Option.some.inj hx)
    have hoff := congrArg Cursor.offset hc
    obtain ⟨hne, -⟩ := matches_of_lookup hl
    rw [advance_offset] at hoff
    exact hne (String.toList_eq_nil_iff.1 (Text.byteLength_eq_zero.1 (by omega)))

theorem RealFormat.not_idles {f : RealFormat} : ¬ f.parser.Idles here stop := by
  intro h
  obtain ⟨p, hmem, x, hx⟩ := idles_choice h
  simp only [List.mem_cons, List.not_mem_nil, or_false] at hmem
  rcases hmem with rfl | rfl
  · exact not_idles_number ⟨x, hx⟩
  · exact SymbolTable.not_idles ⟨x, (enabled_eq_success.1 hx).2⟩

theorem Terminal.nullable_of_idles {t : Terminal} (h : t.parser.Idles here stop) : t.Nullable := by
  cases t with
  | empty => trivial
  | eof => trivial
  | eol => trivial
  | literal case text => exact String.toList_eq_nil_iff.1 (eq_nil_of_idles_literal h.of_map)
  | char c => exact not_idles_char h.of_map
  | charIf accepts => exact not_idles_charIf h.of_map
  | fail kind =>
    obtain ⟨v, hv⟩ := h
    cases hv
  | spacedChar c => exact isBlank_of_idles_spacedChar h.of_map
  | sign policy => exact policy.ne_required_of_idles h.of_map
  | integer format => exact format.not_idles h.of_map
  | real format => exact format.not_idles h.of_map
  | symbols table => exact table.not_idles h

/-! ## Grammars and rules -/

theorem Grammar.nullable_of_idles {rules : Rules} {R : String → Parser Value}
    (hagrees : ∀ name, (R name).Agrees (R name))
    (hrules : ∀ {name here stop}, (R name).Idles here stop → rules.Nullable (.rule name))
    {g : Grammar} {here stop : Cursor} (h : (g.denote R).Idles here stop) : rules.Nullable g := by
  have hparts : ∀ gs, ∀ q ∈ Grammar.parts R gs, q.parser.Agrees q.parser := by
    intro gs q hq
    rw [parts_eq_map] at hq
    obtain ⟨g, -, rfl⟩ := List.mem_map.1 hq
    exact g.agrees hagrees
  have hrep : ∀ b sep g, Repetition.Agrees ⟨b, (denote R sep).skip, denote R g⟩ _ := fun b sep g =>
    ⟨rfl, (sep.agrees hagrees).skip, g.agrees hagrees⟩
  induction g generalizing here with
  | terminal t => exact .terminal (t.nullable_of_idles h)
  | emit v => exact .emit
  | sequence sep parts hsep hall =>
    obtain ⟨hs, hp⟩ := idles_sequence (sep.agrees hagrees) (hparts parts) h.of_map
    rw [parts_eq_map] at hs hp
    refine .sequence (fun g hg => hall g hg (hp _ (List.mem_map_of_mem hg))) fun hlt => hsep (hs ?_)
    rwa [List.length_map]
  | choice gs hall =>
    obtain ⟨p, hp, hidle⟩ := idles_choice h
    rw [parsers_eq_map] at hp
    obtain ⟨g, hg, rfl⟩ := List.mem_map.1 hp
    exact .choice hg (hall g hg hidle)
  | variants gs hall =>
    obtain ⟨w, hw⟩ := h
    obtain ⟨p, hp, hidle⟩ := exists_of_taggedChoice hw
    rw [parsers_eq_map] at hp
    obtain ⟨g, hg, rfl⟩ := List.mem_map.1 hp
    exact .variants hg (hall g hg hidle)
  | repetition b sep g hsep hg =>
    rcases (hrep b sep g).idles_ofKind h with hmin | ⟨hi, hs⟩
    · exact .noItems hmin
    · exact .repetition (hg hi) fun hlt => hsep (hs hlt).of_map
  | collect into b sep g hsep hg =>
    rcases (hrep b sep g).idles_gather h with hmin | ⟨hi, hs⟩
    · exact .collectNone hmin
    · exact .collect (hg hi) fun hlt => hsep (hs hlt).of_map
  | skip g hg => exact .skip (hg h.of_map.of_map)
  | opt g hg => exact .opt
  | onlyWhere must g hmust hg =>
    obtain ⟨v, hv⟩ := h
    exact .onlyWhere (hg ⟨v, (onlyWhere_eq_success.1 hv).2⟩)
  | exceptWhere non g hnon hg =>
    obtain ⟨v, hv⟩ := h
    exact .exceptWhere (hg ⟨v, (exceptWhere_eq_success.1 hv).2⟩)
  | enabled on g hg =>
    obtain ⟨v, hv⟩ := h
    obtain ⟨rfl, hv⟩ := enabled_eq_success.1 hv
    exact .enabled (hg ⟨v, hv⟩)
  | check accepts g hg => exact .check (hg h.of_apply)
  | map f g hg => exact .map (hg h.of_map)
  | apply f g hg => exact .apply (hg h.of_apply)
  | raw g hg => exact .raw (hg h.of_map.of_raw)
  | rule name => exact hrules h

/-- A rule that succeeds where it stands is nullable. -/
theorem Rules.nullable_of_idles {rules : Rules} {n : Nat} {name : String} {here stop : Cursor}
    (h : (rules.parser n name).Idles here stop) : rules.Nullable (.rule name) := by
  induction n generalizing name here stop with
  | zero =>
    obtain ⟨v, hv⟩ := h
    cases hv
  | succ n ih =>
    unfold Rules.parser at h
    cases hfind : rules.find? name with
    | none =>
      rw [hfind] at h
      obtain ⟨v, hv⟩ := h
      cases hv
    | some g =>
      rw [hfind] at h
      exact .rule hfind (g.nullable_of_idles (fun m => rules.agrees n n m) ih h)

end PegParsing
