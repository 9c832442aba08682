import Mathlib.Logic.Relation
import PegParsing.Catalog.Json
import PegParsing.Proofs.Grammar.Nullable
import PegParsing.Proofs.Parser.Finishing

/-!
# Left recursion

`Rules.LeftCorner` says of a grammar, by its form alone, which rules it may call before it has read
anything: through parts of a sequence and items of a repetition that may read nothing, through
separators, through lookahead of both kinds. Rules are left recursive if one of them may come back
to itself in this way.

Without left recursion every parse comes to an end (`Language.finishes`). Behind something read the
window is smaller, and where nothing has been read the calls under way are all of different rules.
Hence `Rules.depth` nested calls are enough.
-/

namespace PegParsing

/-- The grammar may call the rule of that name before it has read anything. -/
inductive Rules.LeftCorner (rules : Rules) : Grammar → String → Prop
  | part {sep g : Grammar} {before after : List Grammar} {name : String} :
      (∀ b ∈ before, rules.Nullable b) → (before ≠ [] → rules.Nullable sep) →
      LeftCorner rules g name → LeftCorner rules (.sequence sep (before ++ g :: after)) name
  | separator {sep g : Grammar} {parts : List Grammar} {name : String} : parts ≠ [] →
      rules.Nullable g → LeftCorner rules sep name → LeftCorner rules (.sequence sep (g :: parts)) name
  | choice {gs : List Grammar} {g : Grammar} {name : String} :
      g ∈ gs → LeftCorner rules g name → LeftCorner rules (.choice gs) name
  | variants {gs : List Grammar} {g : Grammar} {name : String} :
      g ∈ gs → LeftCorner rules g name → LeftCorner rules (.variants gs) name
  | item {b : Bounds} {sep g : Grammar} {name : String} : b.full 0 = false →
      LeftCorner rules g name → LeftCorner rules (.repetition b sep g) name
  | itemSeparator {b : Bounds} {sep g : Grammar} {name : String} : 1 < b.min → rules.Nullable g →
      LeftCorner rules sep name → LeftCorner rules (.repetition b sep g) name
  | collectItem {into : Collection} {b : Bounds} {sep g : Grammar} {name : String} :
      b.full 0 = false → LeftCorner rules g name → LeftCorner rules (.collect into b sep g) name
  | collectSeparator {into : Collection} {b : Bounds} {sep g : Grammar} {name : String} :
      1 < b.min → rules.Nullable g → LeftCorner rules sep name →
      LeftCorner rules (.collect into b sep g) name
  | skip {g : Grammar} {name : String} : LeftCorner rules g name → LeftCorner rules (.skip g) name
  | opt {g : Grammar} {name : String} : LeftCorner rules g name → LeftCorner rules (.opt g) name
  | must {must g : Grammar} {name : String} :
      LeftCorner rules must name → LeftCorner rules (.onlyWhere must g) name
  | onlyWhere {must g : Grammar} {name : String} :
      LeftCorner rules g name → LeftCorner rules (.onlyWhere must g) name
  | non {non g : Grammar} {name : String} :
      LeftCorner rules non name → LeftCorner rules (.exceptWhere non g) name
  | exceptWhere {non g : Grammar} {name : String} :
      LeftCorner rules g name → LeftCorner rules (.exceptWhere non g) name
  | enabled {g : Grammar} {name : String} :
      LeftCorner rules g name → LeftCorner rules (.enabled true g) name
  | check {accepts : Value → Bool} {g : Grammar} {name : String} :
      LeftCorner rules g name → LeftCorner rules (.check accepts g) name
  | map {f : Value → Value} {g : Grammar} {name : String} :
      LeftCorner rules g name → LeftCorner rules (.map f g) name
  | apply {f : Value → Except ErrorCode Value} {g : Grammar} {name : String} :
      LeftCorner rules g name → LeftCorner rules (.apply f g) name
  | raw {g : Grammar} {name : String} : LeftCorner rules g name → LeftCorner rules (.raw g) name
  | rule {name : String} : LeftCorner rules (.rule name) name

namespace Rules

/-- The rule `name` may call the rule `other` before it has read anything. -/
def LeftCalls (rules : Rules) (name other : String) : Prop :=
  ∃ g, rules.find? name = some g ∧ rules.LeftCorner g other

/-- A rule may call itself, through whatever other rules, before anything has been read. -/
def LeftRecursive (rules : Rules) : Prop := ∃ name, Relation.TransGen rules.LeftCalls name name

end Rules

open Cursor PegParsing.Parser

/-! ## Grammars -/

/-- Rules finish wherever a parse can come from `here`, and those in `calls` also if it has not
moved. -/
def Ready (R : String → Parser Value) (stop here : Cursor) (calls : String → Prop) : Prop :=
  ∀ name c, here.Reaches stop c → (c = here → calls name) → (R name).Finishes c stop

variable {rules : Rules} {R : String → Parser Value} {here stop c : Cursor}
  {calls calls' : String → Prop}

theorem Ready.move (h : Ready R stop here calls) (hc : here.Reaches stop c)
    (hle : c = here → ∀ name, calls' name → calls name) : Ready R stop c calls' := by
  intro name d hd hcalls
  refine h name d (hc.trans hd) fun hdh => ?_
  have hch : c = here := by
    rw [hdh] at hd
    exact hc.antisymm hd
  exact hle hch name (hcalls (hdh.trans hch.symm))

theorem Ready.mono (h : Ready R stop here calls) (hle : ∀ name, calls' name → calls name) :
    Ready R stop here calls' := h.move (Reaches.refl here stop) fun _ => hle

theorem Repetition.finishes_ofKind {r : Repetition Value} {kind : Kind} (hr : r.Agrees r)
    (h : ∃ vs last, Run r stop 0 here vs last) : (ofKind kind r).Finishes here stop := by
  cases kind with
  | skip => exact Finishes.map (finishes_collect hr h) _
  | value => exact Finishes.map (Finishes.map (finishes_collect hr h) _) _

theorem Repetition.finishes_gather {r : Repetition Value} {into : Collection} (hr : r.Agrees r)
    (h : ∃ vs last, Run r stop 0 here vs last) : (into.collect r).Finishes here stop := by
  cases into with
  | text => exact Finishes.map (finishes_collect hr h) _
  | list => exact Finishes.map (Finishes.map (finishes_collect hr h) _) _
  | dict => exact Finishes.map (finishes_collect hr h) _

theorem Bounds.full_eq_false_of_le {b : Bounds} {m n : Nat} (h : m ≤ n) (hn : b.full n = false) :
    b.full m = false := by
  unfold full at *
  cases hmax : b.max with
  | none => rfl
  | some k =>
    rw [hmax] at hn
    simp only [Option.any_some, decide_eq_false_iff_not] at hn ⊢
    omega

namespace Grammar

/-- The parts of a sequence behind `before` finish, if nothing was read only through parts that may
read nothing. -/
theorem finishes_sequenceTail (hagrees : ∀ name, (R name).Agrees (R name))
    (hrules : ∀ {name here stop}, (R name).Idles here stop → rules.Nullable (.rule name))
    {sep : Grammar} {before rest : List Grammar} (hbefore : before ≠ [])
    (hsep : ∀ c, Ready R stop c (rules.LeftCorner sep) → (sep.denote R).Finishes c stop)
    (hrest : ∀ g ∈ rest, ∀ c, Ready R stop c (rules.LeftCorner g) → (g.denote R).Finishes c stop)
    (hready : Ready R stop here (rules.LeftCorner (.sequence sep (before ++ rest))))
    (hc : here.Reaches stop c) (hnull : c = here → ∀ b ∈ before, rules.Nullable b) :
    (sequenceTail (sep.denote R) (parts R rest)).Finishes c stop := by
  induction rest generalizing before c with
  | nil => exact finishes_succeed _
  | cons g rest ih =>
    obtain ⟨hg, hrest⟩ := List.forall_mem_cons.1 hrest
    refine Finishes.bind (hsep c (hready.move hc fun hch name hcorner => ?_)) fun d u hd => ?_
    · -- the separator runs behind a first part that read nothing
      cases before with
      | nil => exact absurd rfl hbefore
      | cons b before =>
        exact .separator (by simp) (hnull hch b List.mem_cons_self) hcorner
    have hcd : c.Reaches stop d := (sep.agrees hagrees).reaches hd
    refine Finishes.bind (hg d (hready.move (hc.trans hcd) fun hdh name hcorner => ?_)) fun e v he => ?_
    · rw [hdh] at hd hcd
      obtain rfl := hc.antisymm hcd
      exact .part (hnull rfl) (fun _ => sep.nullable_of_idles hagrees hrules ⟨u, hd⟩) hcorner
    have hde : d.Reaches stop e := (g.agrees hagrees).reaches he
    refine Finishes.map (@ih e (before ++ [g]) (by simp) hrest ?_ ((hc.trans hcd).trans hde) ?_) _
    · rwa [List.append_assoc]
    · intro heh
      subst heh
      obtain rfl := (hc.trans hcd).antisymm hde
      obtain rfl := hc.antisymm hcd
      rw [List.forall_mem_append]
      exact ⟨hnull rfl, List.forall_mem_singleton.2 (g.nullable_of_idles hagrees hrules ⟨v, he⟩)⟩

/-- A repetition finishes if its item and its separator do. A second item at one place is asked for
only behind an item that may read nothing. -/
theorem exists_run (hagrees : ∀ name, (R name).Agrees (R name))
    (hrules : ∀ {name here stop}, (R name).Idles here stop → rules.Nullable (.rule name))
    {b : Bounds} {sep g : Grammar}
    (hsep : ∀ c, Ready R stop c (rules.LeftCorner sep) → (sep.denote R).Finishes c stop)
    (hg : ∀ c, Ready R stop c (rules.LeftCorner g) → (g.denote R).Finishes c stop)
    (hready : Ready R stop here fun name => b.full 0 = false ∧ rules.LeftCorner g name ∨
      1 < b.min ∧ rules.Nullable g ∧ rules.LeftCorner sep name) :
    ∃ vs last, Repetition.Run ⟨b, (sep.denote R).skip, g.denote R⟩ stop 0 here vs last := by
  have hr : Repetition.Agrees ⟨b, (sep.denote R).skip, g.denote R⟩ _ :=
    ⟨rfl, (sep.agrees hagrees).skip, g.agrees hagrees⟩
  refine Repetition.exists_run (hr.forward stop).advances
    (I := fun count c => here.Reaches stop c ∧ (c = here → count = 0 ∨ count < b.min ∧ rules.Nullable g))
    ?_ ?_ ⟨Reaches.refl here stop, fun _ => .inl rfl⟩
  · rintro count c ⟨hc, hcount⟩ hfull
    have hfirst : b.full 0 = false := Bounds.full_eq_false_of_le (Nat.zero_le count) hfull
    refine Finishes.bind ?_ fun d u hd => hg d (hready.move (hc.trans ?_) fun _ name hcorner => ?_)
    · unfold Repetition.separatorAt
      split
      · exact finishes_empty
      · rename_i hpos
        refine (hsep c (hready.move hc fun hch name hcorner => ?_)).skip
        obtain ⟨hmin, hnull⟩ := (hcount hch).resolve_left hpos
        exact .inr ⟨Nat.lt_of_le_of_lt (Nat.pos_of_ne_zero hpos) hmin, hnull, hcorner⟩
    · exact (hr.separatorAt count).reaches hd
    · exact .inl ⟨hfirst, hcorner⟩
  · rintro count c v mid ⟨hc, hcount⟩ hfull hround hst
    have hcm := (hr.round count).reaches hround
    refine ⟨hc.trans hcm, fun hmid => .inr ?_⟩
    subst hmid
    obtain rfl := hc.antisymm hcm
    refine ⟨Nat.lt_of_not_le fun hle => hst ⟨rfl, hle⟩, ?_⟩
    exact g.nullable_of_idles hagrees hrules (hr.idles_round ⟨v, hround⟩).1

/-- A grammar finishes if the rules that it may call do. -/
theorem finishes (hagrees : ∀ name, (R name).Agrees (R name))
    (hrules : ∀ {name here stop}, (R name).Idles here stop → rules.Nullable (.rule name))
    (g : Grammar) (hready : Ready R stop here (rules.LeftCorner g)) :
    (g.denote R).Finishes here stop := by
  induction g generalizing here with
  | terminal t => exact t.finishes
  | emit v => exact finishes_succeed v
  | sequence sep gs hsep hgs =>
    refine Finishes.map ?_ _
    cases gs with
    | nil => exact finishes_succeed _
    | cons g gs =>
      obtain ⟨hg, hgs⟩ := List.forall_mem_cons.1 hgs
      have hfirst : Ready R stop here (rules.LeftCorner g) := hready.mono fun name hcorner =>
        @Rules.LeftCorner.part rules sep g [] gs name nofun (fun hne => absurd rfl hne) hcorner
      refine Finishes.bind (hg hfirst) fun d v hd => Finishes.map ?_ _
      refine finishes_sequenceTail hagrees hrules (List.cons_ne_nil g []) (fun c => hsep)
        (fun g hg c => hgs g hg) hready ((g.agrees hagrees).reaches hd) fun hdh => ?_
      subst hdh
      exact List.forall_mem_singleton.2 (g.nullable_of_idles hagrees hrules ⟨v, hd⟩)
  | choice gs hgs =>
    refine finishes_choice fun p hp => ?_
    rw [parsers_eq_map] at hp
    obtain ⟨g, hg, rfl⟩ := List.mem_map.1 hp
    exact hgs g hg (hready.mono fun name => .choice hg)
  | variants gs hgs =>
    refine finishes_taggedChoice fun p hp => ?_
    rw [parsers_eq_map] at hp
    obtain ⟨g, hg, rfl⟩ := List.mem_map.1 hp
    exact hgs g hg (hready.mono fun name => .variants hg)
  | repetition b sep g hsep hg =>
    have hrun := exists_run hagrees hrules (fun c => hsep) (fun c => hg) (hready.mono fun name hname =>
      hname.elim (fun h => .item h.1 h.2) fun h => .itemSeparator h.1 h.2.1 h.2.2)
    exact Repetition.finishes_ofKind ⟨rfl, (sep.agrees hagrees).skip, g.agrees hagrees⟩ hrun
  | collect into b sep g hsep hg =>
    have hrun := exists_run hagrees hrules (fun c => hsep) (fun c => hg) (hready.mono fun name hname =>
      hname.elim (fun h => .collectItem h.1 h.2) fun h => .collectSeparator h.1 h.2.1 h.2.2)
    exact Repetition.finishes_gather ⟨rfl, (sep.agrees hagrees).skip, g.agrees hagrees⟩ hrun
  | skip g hg => exact (hg (hready.mono fun name => .skip)).skip.map _
  | opt g hg =>
    have hopt := (hg (hready.mono fun name => .opt)).opt
    unfold denote Parser.optOfKind
    cases g.kind with
    | skip => exact hopt.map _
    | value => exact hopt.map _
  | onlyWhere must g hmust hg =>
    exact (hmust (hready.mono fun name => .must)).onlyWhere (hg (hready.mono fun name => .onlyWhere))
  | exceptWhere non g hnon hg =>
    exact (hnon (hready.mono fun name => .non)).exceptWhere (hg (hready.mono fun name => .exceptWhere))
  | enabled on g hg =>
    refine finishes_enabled ?_
    rintro rfl
    exact hg (hready.mono fun name => .enabled)
  | check accepts g hg => exact (hg (hready.mono fun name => .check)).check accepts
  | map f g hg => exact (hg (hready.mono fun name => .map)).map f
  | apply f g hg => exact (hg (hready.mono fun name => .apply)).apply f
  | raw g hg => exact (hg (hready.mono fun name => .raw)).raw.map _
  | rule name => exact hready name here (Reaches.refl here stop) fun _ => .rule

end Grammar

/-! ## Rules -/

namespace Rules

theorem mem_names_of_find? {name : String} {g : Grammar} (h : rules.find? name = some g) :
    name ∈ rules.entries.map Prod.fst := by
  obtain ⟨e, he, -⟩ := Option.map_eq_some_iff.1 h
  have hname := List.find?_some he
  exact List.mem_map.2 ⟨e, List.mem_of_find?_eq_some he, of_decide_eq_true hname⟩

/-- A rule finishes if nested calls are left for each place still to come and, where it stands, for
each rule not called there yet. The rules in `seen` are under way and lead to this one. -/
theorem finishes (hrec : ¬ rules.LeftRecursive) {n : Nat} {name : String} {seen : List String}
    (hnodup : seen.Nodup) (hnames : seen ⊆ rules.entries.map Prod.fst)
    (hseen : ∀ s ∈ seen, Relation.TransGen rules.LeftCalls s name)
    (hn : rules.entries.length * here.remaining stop + (rules.entries.length - seen.length) < n) :
    (rules.parser n name).Finishes here stop := by
  induction n generalizing here name seen with
  | zero => exact absurd hn (Nat.not_lt_zero _)
  | succ n ih =>
    unfold Rules.parser
    cases hfind : rules.find? name with
    | none => exact finishes_failAt _
    | some g =>
      have hfresh : name ∉ seen := fun hmem => hrec ⟨name, hseen name hmem⟩
      have hnodup' : (name :: seen).Nodup := List.nodup_cons.2 ⟨hfresh, hnodup⟩
      have hnames' : name :: seen ⊆ rules.entries.map Prod.fst :=
        List.cons_subset.2 ⟨mem_names_of_find? hfind, hnames⟩
      have hlen := hnodup'.length_le_of_subset hnames'
      rw [List.length_cons, List.length_map] at hlen
      refine g.finishes (fun m => rules.agrees n n m) nullable_of_idles fun m c hc hcalls => ?_
      by_cases hch : c = here
      · subst hch
        have hcall : rules.LeftCalls name m := ⟨g, hfind, hcalls rfl⟩
        refine ih hnodup' hnames' (List.forall_mem_cons.2 ⟨.single hcall, fun s hs => ?_⟩) ?_
        · exact (hseen s hs).tail hcall
        · rw [List.length_cons]
          omega
      · have hrem := hc.remaining_lt hch
        have hmul := Nat.mul_le_mul_left rules.entries.length hrem
        rw [Nat.mul_succ] at hmul
        refine ih List.nodup_nil (List.nil_subset _) (List.forall_mem_nil _) ?_
        rw [List.length_nil]
        omega

end Rules

/-- Without left recursion every grammar finishes on enough nested calls. -/
theorem Rules.finishes_denote (hrec : ¬ rules.LeftRecursive) (g : Grammar) {n : Nat}
    (hn : rules.entries.length * (here.remaining stop + 1) < n) :
    (g.denote (rules.parser n)).Finishes here stop := by
  refine g.finishes (fun m => rules.agrees n n m) nullable_of_idles fun m c hc _ => ?_
  have hmul := Nat.mul_le_mul_left rules.entries.length hc.remaining_le
  refine finishes hrec List.nodup_nil (List.nil_subset _) (List.forall_mem_nil _) ?_
  rw [Nat.mul_succ] at hn
  rw [List.length_nil]
  omega

/-- Without left recursion every parse comes to an end. -/
theorem Language.finishes {l : Language} (hrec : ¬ l.rules.LeftRecursive) :
    l.parser.Finishes here stop :=
  Rules.finishes_denote hrec l.start (Nat.lt_succ_self _)

/-! ## Rules without left recursion -/

/-- What a sequence begins with is what its first part begins with, if that reads something. -/
theorem Rules.LeftCorner.of_sequence_cons {sep g : Grammar} {gs : List Grammar} {name : String}
    (h : rules.LeftCorner (.sequence sep (g :: gs)) name) (hg : ¬ rules.Nullable g) :
    rules.LeftCorner g name := by
  generalize hs : Grammar.sequence sep (g :: gs) = s at h
  cases h with
  | @part sep' g' before after _ hnull hsep hcorner =>
    obtain ⟨-, hparts⟩ := Grammar.sequence.inj hs
    cases before with
    | nil =>
      obtain ⟨rfl, -⟩ := List.cons.inj hparts
      exact hcorner
    | cons b before =>
      obtain ⟨rfl, -⟩ := List.cons.inj hparts
      exact absurd (hnull g List.mem_cons_self) hg
  | @separator sep' g' parts _ hne hnull hcorner =>
    obtain ⟨-, hparts⟩ := Grammar.sequence.inj hs
    obtain ⟨rfl, -⟩ := List.cons.inj hparts
    exact absurd hnull hg
  | _ => cases hs

theorem Rules.not_leftCorner_of_terminal {t : Terminal} {sep : Grammar} {gs : List Grammar}
    {name : String} (ht : ¬ t.Nullable) :
    ¬ rules.LeftCorner (.sequence sep (.terminal t :: gs)) name := by
  intro h
  have hfirst := h.of_sequence_cons fun hnull => by
    cases hnull with
    | terminal hnull => exact ht hnull
  cases hfirst

namespace Catalog.Json

theorem not_leftCorner_of_mem {name : String} {g : Grammar}
    (hg : g ∈ [string, number, list, dict, keyword]) : ¬ rules.LeftCorner g name := by
  intro h
  simp only [List.mem_cons, List.not_mem_nil, or_false] at hg
  rcases hg with rfl | rfl | rfl | rfl | rfl
  · exact Rules.not_leftCorner_of_terminal (t := .literal .exact "\"") (by decide) h
  · cases h
  · exact Rules.not_leftCorner_of_terminal (t := .spacedChar '[') (by decide) h
  · exact Rules.not_leftCorner_of_terminal (t := .spacedChar '\x7b') (by decide) h
  · cases h with
    | choice hmem h =>
      simp only [List.mem_cons, List.not_mem_nil, or_false] at hmem
      rcases hmem with rfl | rfl | rfl
      all_goals
        cases h with
        | map h => cases h

/-- The only rule calls itself behind a bracket or a quote. -/
theorem not_leftRecursive : ¬ document.rules.LeftRecursive := by
  rintro ⟨name, h⟩
  obtain ⟨other, ⟨g, hg, hcorner⟩, -⟩ := Relation.TransGen.head'_iff.1 h
  obtain ⟨e, he, rfl⟩ := Option.map_eq_some_iff.1 hg
  have hmem : e ∈ [("value", Grammar.choice [string, number, list, dict, keyword])] :=
    List.mem_of_find?_eq_some he
  rw [List.mem_singleton.1 hmem] at hcorner
  cases hcorner with
  | choice hmem hcorner => exact not_leftCorner_of_mem hmem hcorner

end Catalog.Json

end PegParsing
