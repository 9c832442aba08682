import Mathlib.Data.List.Find
import Mathlib.Tactic.ByContra
import PegParsing.Proofs.Symbol.Segments
import PegParsing.Proofs.Text.Folding

/-!
# The longest key that a text begins with

`lookup` searches one of three segments of the table, backwards. What is cut off below stands before
the first character of the text, what is cut off above stands behind the whole text, and neither begins
the text (`Segments.not_matches`). So a lookup finds the last entry of the whole table whose key begins
the text (`lookup_eq_find?`). Of two such keys the longer one is the later one, so that the last is the
longest, and no other is as long.

For tables built from entries in any order, `lookup_ofEntries` says what is found, and
`segment_holds_matches` where it is sought.
-/

namespace PegParsing.SymbolTable

variable {α : Type}

/-- The key of `e` is not empty, and the text begins with it. -/
def Matches (case : LetterCase) (text : List Char) (e : String × α) : Prop :=
  e.1 ≠ "" ∧ case.foldAll (Text.utf8 e.1.toList) <+: case.foldAll (Text.utf8 text)

instance (case : LetterCase) (text : List Char) :
    DecidablePred (Matches case text : String × α → Prop) := fun e => by
  unfold Matches
  infer_instance

/-- One of the entries matches, and every other one that matches has a shorter key. -/
def LongestMatch (case : LetterCase) (text : List Char) (es : List (String × α))
    (e : String × α) : Prop :=
  ∃ before after, es = before ++ e :: after ∧ Matches case text e ∧
    ∀ x ∈ before ++ after, Matches case text x →
      Text.byteLength x.1.toList < Text.byteLength e.1.toList

theorem exists_cons_of_ne_empty {s : String} (h : s ≠ "") : ∃ c cs, s.toList = c :: cs := by
  cases hs : s.toList with
  | nil => exact absurd (String.toList_eq_nil_iff.1 hs) h
  | cons c cs => exact ⟨c, cs, rfl⟩

/-- Nothing matches the empty text. -/
theorem not_matches_nil (case : LetterCase) (e : String × α) : ¬ Matches case [] e := by
  rintro ⟨hne, hpre⟩
  obtain ⟨c, cs, hkey⟩ := exists_cons_of_ne_empty hne
  have hlen := hpre.length_le
  have hpos := Char.utf8Size_pos c
  rw [LetterCase.length_foldAll, LetterCase.length_foldAll, Text.length_utf8, Text.length_utf8, hkey,
    Text.byteLength_cons, Text.byteLength_nil] at hlen
  omega

/-! ## The two borders -/

/-- A key that matches is not before the first character of the text. -/
theorem Matches.order_first_ne_lt {case : LetterCase} {c : Char} {cs : List Char} {e : String × α}
    (h : Matches case (c :: cs) e) :
    case.order (Text.utf8 e.1.toList) (Text.utf8 [c]) ≠ .lt := by
  obtain ⟨hne, x, hx⟩ := h
  obtain ⟨d, ds, hkey⟩ := exists_cons_of_ne_empty hne
  obtain ⟨p, s, htext, hp, -⟩ := LetterCase.exists_append_of_foldAll hx.symm
  rw [hkey, List.map_cons] at hp
  -- the first characters fold to the same character, whatever their lengths
  obtain ⟨c', p, rfl, hc, -⟩ := List.map_eq_cons_iff.1 hp
  obtain ⟨rfl, -⟩ := List.cons_eq_cons.1 htext
  have hle : (case.order (Text.utf8 [c]) (Text.utf8 e.1.toList)).isLE := by
    apply LetterCase.isLE_order_of_prefix
    rw [LetterCase.foldAll_utf8, LetterCase.foldAll_utf8, hkey, List.map_cons, List.map_cons,
      List.map_nil, hc]
    exact ⟨Text.utf8 (ds.map case.foldChar), by rw [← Text.utf8_append]; rfl⟩
  have hswap : case.order (Text.utf8 [c]) (Text.utf8 e.1.toList) =
      (case.order (Text.utf8 e.1.toList) (Text.utf8 [c])).swap := Std.OrientedCmp.eq_swap
  intro hlt
  rw [hswap, hlt] at hle
  cases hle

/-- The empty key is before the first character of every text. -/
theorem ne_empty_of_order_first {case : LetterCase} {c : Char} {e : String × α}
    (h : case.order (Text.utf8 e.1.toList) (Text.utf8 [c]) ≠ .lt) : e.1 ≠ "" := by
  intro hnil
  apply h
  rw [hnil]
  have hpos := Char.utf8Size_pos c
  unfold LetterCase.order
  cases hc : case.foldAll (Text.utf8 [c]) with
  | nil =>
    have hlen := congrArg List.length hc
    rw [LetterCase.length_foldAll, Text.length_utf8, Text.byteLength_cons] at hlen
    simp only [Text.byteLength_nil, List.length_nil] at hlen
    omega
  | cons b bs => cases case <;> rfl

/-! ## The fast search and the plain one -/

theorem matches_iff {case : LetterCase} {text : List Char} {e : String × α} :
    Matches case text e ↔
      e.1 ≠ "" ∧ case.isPrefixOf (Text.utf8 e.1.toList) (Text.utf8 text) := by
  unfold Matches
  rw [LetterCase.isPrefixOf_iff]

namespace Segments

variable {case : LetterCase} {c : Char} {cs : List Char} {es below within above : List (String × α)}
  {e : String × α}

/-- What is cut off does not match. -/
theorem not_matches (h : Segments case c cs es below within above) (he : e ∈ below ∨ e ∈ above) :
    ¬ Matches case (c :: cs) e := by
  intro hm
  rcases he with he | he
  · exact hm.order_first_ne_lt (h.order_below e he)
  · exact Ordering.ne_gt_iff_isLE.2 (LetterCase.isLE_order_of_prefix hm.2) (h.order_above e he)

theorem mem_within (h : Segments case c cs es below within above) (he : e ∈ es)
    (hm : Matches case (c :: cs) e) : e ∈ within := by
  rw [h.eq_append, List.mem_append, List.mem_append] at he
  rcases he with he | he | he
  · exact absurd hm (h.not_matches (.inl he))
  · exact he
  · exact absurd hm (h.not_matches (.inr he))

/-- The empty key is cut off, so that every key that is left and begins the text matches. -/
theorem matches_iff_isPrefixOf (h : Segments case c cs es below within above) (he : e ∈ within) :
    Matches case (c :: cs) e ↔
      case.isPrefixOf (Text.utf8 e.1.toList) (Text.utf8 (c :: cs)) := by
  have hne := ne_empty_of_order_first (h.order_from e (List.mem_append_left above he))
  rw [matches_iff, and_iff_right hne]

end Segments

/-- A lookup finds the last entry that matches. -/
theorem lookup_eq_find? (t : SymbolTable α) (text : List Char) :
    t.lookup text = t.entries.toList.reverse.find? (Matches t.case text ·) := by
  cases text with
  | nil =>
    refine (List.find?_eq_none.2 fun e _ => ?_).symm
    rw [decide_eq_true_iff]
    exact not_matches_nil t.case e
  | cons c cs =>
    obtain ⟨below, within, above, h, -, -, hlookup⟩ := t.exists_segments c cs
    have hbelow : below.reverse.find? (Matches t.case (c :: cs) ·) = none :=
      List.find?_eq_none.2 fun e he => by
        simpa using h.not_matches (.inl (List.mem_reverse.1 he))
    have habove : above.reverse.find? (Matches t.case (c :: cs) ·) = none :=
      List.find?_eq_none.2 fun e he => by
        simpa using h.not_matches (.inr (List.mem_reverse.1 he))
    rw [hlookup, h.eq_append, List.reverse_append, List.reverse_append, List.find?_append,
      List.find?_append, hbelow, habove, Option.none_or, Option.or_none]
    refine List.find?_congr fun e he => ?_
    rw [Bool.eq_iff_iff, decide_eq_true_iff, h.matches_iff_isPrefixOf (List.mem_reverse.1 he)]

/-- What a lookup finds stands in the table, matches, and nothing behind it does. -/
theorem lookup_eq_some_iff {t : SymbolTable α} {text : List Char} {e : String × α} :
    t.lookup text = some e ↔ Matches t.case text e ∧
      ∃ before after, t.entries.toList = before ++ e :: after ∧
        ∀ x ∈ after, ¬ Matches t.case text x := by
  rw [lookup_eq_find?, List.find?_eq_some_iff_append, decide_eq_true_iff]
  refine and_congr_right fun _ => ⟨?_, ?_⟩
  · rintro ⟨after, before, hes, hafter⟩
    refine ⟨before.reverse, after.reverse, ?_, fun x hx => ?_⟩
    · rw [← List.reverse_reverse t.entries.toList, hes]
      simp only [List.reverse_append, List.reverse_cons, List.append_assoc, List.singleton_append]
    · simpa using hafter x (List.mem_reverse.1 hx)
  · rintro ⟨before, after, hes, hafter⟩
    refine ⟨after.reverse, before.reverse, ?_, fun x hx => ?_⟩
    · rw [hes]
      simp only [List.reverse_append, List.reverse_cons, List.append_assoc, List.singleton_append]
    · simpa using hafter x (List.mem_reverse.1 hx)

theorem lookup_eq_none_iff {t : SymbolTable α} {text : List Char} :
    t.lookup text = none ↔ ∀ e ∈ t.entries.toList, ¬ Matches t.case text e := by
  rw [lookup_eq_find?, List.find?_eq_none]
  simp only [List.mem_reverse, decide_eq_true_iff]

theorem matches_of_lookup {t : SymbolTable α} {text : List Char} {e : String × α}
    (h : t.lookup text = some e) : Matches t.case text e := (lookup_eq_some_iff.1 h).1

/-! ## The last match is the longest -/

/-- Of two keys that a text begins with, the earlier one is the shorter one. -/
theorem byteLength_lt_of_keyOrder {case : LetterCase} {text : List Char} {x e : String × α}
    (hx : Matches case text x) (he : Matches case text e) (hlt : case.keyOrder x e = .lt) :
    Text.byteLength x.1.toList < Text.byteLength e.1.toList := by
  have hgt : case.order (Text.utf8 e.1.toList) (Text.utf8 x.1.toList) = .gt :=
    Std.OrientedCmp.gt_of_lt hlt
  rw [← Text.length_utf8, ← Text.length_utf8, ← case.length_foldAll (Text.utf8 x.1.toList),
    ← case.length_foldAll (Text.utf8 e.1.toList)]
  rcases List.prefix_or_prefix_of_prefix hx.2 he.2 with h | h
  · refine Nat.lt_of_le_of_ne h.length_le fun hlen => ?_
    have heq := LetterCase.order_eq_iff.2 (h.eq_of_length hlen)
    rw [LetterCase.keyOrder, heq] at hlt
    cases hlt
  · exact absurd hgt (Ordering.ne_gt_iff_isLE.2 (LetterCase.isLE_order_of_prefix h))

theorem longestMatch_of_lookup {t : SymbolTable α} {text : List Char} {e : String × α}
    (h : t.lookup text = some e) : LongestMatch t.case text t.entries.toList e := by
  obtain ⟨hmatch, before, after, hes, hafter⟩ := lookup_eq_some_iff.1 h
  refine ⟨before, after, hes, hmatch, fun x hx hxm => ?_⟩
  rcases List.mem_append.1 hx with hx | hx
  · have hsorted := t.increasing
    rw [hes, List.pairwise_append] at hsorted
    exact byteLength_lt_of_keyOrder hxm hmatch (hsorted.2.2 x hx e List.mem_cons_self)
  · exact absurd hxm (hafter x hx)

theorem LongestMatch.of_perm {case : LetterCase} {text : List Char} {es fs : List (String × α)}
    {e : String × α} (h : LongestMatch case text es e) (hperm : es.Perm fs) :
    LongestMatch case text fs e := by
  obtain ⟨before, after, rfl, hmatch, hlong⟩ := h
  obtain ⟨before', after', rfl⟩ := List.append_of_mem
    (hperm.mem_iff.1 (List.mem_append_right before List.mem_cons_self))
  -- the others are the same entries in another order
  have hothers : (before ++ after).Perm (before' ++ after') :=
    ((List.perm_middle.symm.trans hperm).trans List.perm_middle).cons_inv
  exact ⟨before', after', rfl, hmatch, fun x hx => hlong x (hothers.mem_iff.2 hx)⟩

/-- There is one longest match at most. -/
theorem LongestMatch.unique {case : LetterCase} {text : List Char} {es : List (String × α)}
    {e f : String × α} (he : LongestMatch case text es e) (hf : LongestMatch case text es f) :
    e = f := by
  obtain ⟨before, after, rfl, hmatch, hlong⟩ := he
  obtain ⟨before', after', heq, hmatch', hlong'⟩ := hf
  have hmem : f ∈ before ++ e :: after := by
    rw [heq]
    exact List.mem_append_right _ List.mem_cons_self
  have hmem' : e ∈ before' ++ f :: after' := by
    rw [← heq]
    exact List.mem_append_right _ List.mem_cons_self
  by_contra hne
  have h₁ : f ∈ before ++ after := by
    simp only [List.mem_append, List.mem_cons] at hmem ⊢
    rcases hmem with h | rfl | h
    · exact Or.inl h
    · exact absurd rfl hne
    · exact Or.inr h
  have h₂ : e ∈ before' ++ after' := by
    simp only [List.mem_append, List.mem_cons] at hmem' ⊢
    rcases hmem' with h | rfl | h
    · exact Or.inl h
    · exact absurd rfl hne
    · exact Or.inr h
  exact Nat.lt_asymm (hlong f h₁ hmatch') (hlong' e h₂ hmatch)

/-! ## Tables from entries in any order -/

theorem ofEntries_eq_ok {case : LetterCase} {es : List (String × α)} {t : SymbolTable α}
    (h : ofEntries case es = .ok t) : t.case = case ∧ t.entries.toList.Perm es := by
  unfold ofEntries at h
  split at h
  · cases h
  · cases h
    exact ⟨rfl, List.mergeSort_perm es _⟩

theorem firstRepeat?_eq_none {case : LetterCase} {es : List (String × α)}
    (h : es.Pairwise fun a b => case.keyOrder a b ≠ .eq) : firstRepeat? case es = none := by
  fun_induction firstRepeat? case es with
  | case1 a b es heq =>
    exact absurd heq ((List.pairwise_cons.1 h).1 b List.mem_cons_self)
  | case2 a b es hne ih => exact ih (List.pairwise_cons.1 h).2
  | case3 => rfl

/-- Entries with different keys make up a table. -/
theorem exists_ofEntries {case : LetterCase} {es : List (String × α)}
    (h : es.Pairwise fun a b => case.keyOrder a b ≠ .eq) : ∃ t, ofEntries case es = .ok t := by
  have hsymm : ∀ {a b : String × α}, case.keyOrder a b ≠ .eq → case.keyOrder b a ≠ .eq :=
    fun hab hba => hab (Std.OrientedCmp.eq_symm hba)
  have hsorted : (sort case es).Pairwise fun a b => case.keyOrder a b ≠ .eq :=
    (List.mergeSort_perm es _).symm.pairwise h hsymm
  unfold ofEntries
  split
  · rename_i key hkey
    rw [firstRepeat?_eq_none hsorted] at hkey
    cases hkey
  · exact ⟨_, rfl⟩

/-- A table of entries given in any order finds the one with the longest key that the text begins
with, and as a parser reads that key; where no key fits, it finds nothing and fails where it
stands. -/
theorem lookup_ofEntries {case : LetterCase} {es : List (String × α)} {t : SymbolTable α}
    (ht : ofEntries case es = .ok t) (text : List Char) :
    ((∃ x ∈ es, Matches case text x) →
      ∃ e, LongestMatch case text es e ∧ t.lookup text = some e) ∧
    ((∀ x ∈ es, ¬ Matches case text x) → t.lookup text = none) ∧
    ∀ here stop : Cursor, here.rest stop = text →
      (∀ e, LongestMatch case text es e →
        t.parser here stop =
          some (.success (here.advance (Text.byteLength e.1.toList)) e.2)) ∧
      ((∀ x ∈ es, ¬ Matches case text x) →
        t.parser here stop = some (.failure here .symbolNotFound)) := by
  obtain ⟨rfl, hperm⟩ := ofEntries_eq_ok ht
  have hnone : (∀ x ∈ es, ¬ Matches t.case text x) → t.lookup text = none := fun h =>
    lookup_eq_none_iff.2 fun e he => h e (hperm.mem_iff.1 he)
  have hsome : (∃ x ∈ es, Matches t.case text x) →
      ∃ e, LongestMatch t.case text es e ∧ t.lookup text = some e := by
    rintro ⟨x, hx, hmatch⟩
    cases hl : t.lookup text with
    | none => exact absurd hmatch (lookup_eq_none_iff.1 hl x (hperm.mem_iff.2 hx))
    | some e => exact ⟨e, (longestMatch_of_lookup hl).of_perm hperm, rfl⟩
  refine ⟨hsome, hnone, ?_⟩
  rintro here stop rfl
  refine ⟨fun e he => ?_, fun h => ?_⟩
  · obtain ⟨before, after, hes, hmatch, -⟩ := id he
    obtain ⟨f, hf, hlookup⟩ := hsome ⟨e, hes ▸ List.mem_append_right _ List.mem_cons_self, hmatch⟩
    obtain rfl := he.unique hf
    unfold parser
    rw [hlookup]
  · unfold parser
    rw [hnone h]

/-- Keys in any order and case, some of them the beginning of others. -/
theorem lookup_infinite :
    ∃ t, ofEntries .ignored [("infinity", 3), ("ink", 4), ("IN", 1), ("", 0), ("inf", 2)] = .ok t ∧
      t.lookup "InFinite".toList = some ("inf", 2) ∧
      t.parser (.start "InFinite".toList) (.finish "InFinite".toList) =
        some (.success ⟨"InFinite".toList, 3⟩ 2) := by
  obtain ⟨t, ht⟩ : ∃ t, ofEntries .ignored
      [("infinity", 3), ("ink", 4), ("IN", 1), ("", 0), ("inf", 2)] = .ok t :=
    exists_ofEntries (by decide +kernel)
  have hlongest : LongestMatch .ignored "InFinite".toList
      [("infinity", 3), ("ink", 4), ("IN", 1), ("", 0), ("inf", 2)] ("inf", 2) :=
    ⟨[("infinity", 3), ("ink", 4), ("IN", 1), ("", 0)], [], rfl, by decide +kernel,
      by decide +kernel⟩
  obtain ⟨hsome, -, hparser⟩ := lookup_ofEntries ht "InFinite".toList
  refine ⟨t, ht, ?_, (hparser _ _ (by decide +kernel)).1 _ hlongest⟩
  obtain ⟨e, he, hlookup⟩ := hsome ⟨("inf", 2), by decide +kernel, by decide +kernel⟩
  rw [hlookup, he.unique hlongest]

/-- Both borders of a lookup are where they should be: the keys before the first character of the text
come first, and of the others those that are not behind the whole text do. What is cut off holds none
of the given entries that match, and between the borders a longer match stands behind a shorter one, so
that the first one from the end is the longest. -/
theorem segment_holds_matches {case : LetterCase} {es : List (String × α)} {t : SymbolTable α}
    (ht : ofEntries case es = .ok t) (c : Char) (cs : List Char) :
    ∃ below within above, Segments case c cs t.entries.toList below within above ∧
      t.lower c = below.length ∧
      t.upper below.length (c :: cs) = below.length + within.length ∧
      (t.lookup (c :: cs) = within.reverse.find? fun e =>
        case.isPrefixOf (Text.utf8 e.1.toList) (Text.utf8 (c :: cs))) ∧
      (∀ e ∈ es, e.1 ≠ "" → case.isPrefixOf (Text.utf8 e.1.toList) (Text.utf8 (c :: cs)) →
        e ∈ within) ∧
      within.Pairwise fun x y =>
        case.isPrefixOf (Text.utf8 x.1.toList) (Text.utf8 (c :: cs)) →
        case.isPrefixOf (Text.utf8 y.1.toList) (Text.utf8 (c :: cs)) →
          Text.byteLength x.1.toList < Text.byteLength y.1.toList := by
  obtain ⟨rfl, hperm⟩ := ofEntries_eq_ok ht
  obtain ⟨below, within, above, h, hlower, hupper, hlookup⟩ := t.exists_segments c cs
  have hsorted := t.increasing
  rw [h.eq_append, List.pairwise_append, List.pairwise_append] at hsorted
  refine ⟨below, within, above, h, hlower, hupper, hlookup, fun e he hne hpre => ?_, ?_⟩
  · exact h.mem_within (hperm.mem_iff.2 he) (matches_iff.2 ⟨hne, hpre⟩)
  · refine hsorted.2.1.1.imp_of_mem fun {x y} hx hy hlt hpx hpy => ?_
    exact byteLength_lt_of_keyOrder ((h.matches_iff_isPrefixOf hx).2 hpx)
      ((h.matches_iff_isPrefixOf hy).2 hpy) hlt

/-- The first character of the text has two bytes, and between its two matches stands a key that is
none. -/
theorem segment_holds_accented :
    ∃ t, ofEntries .ignored
        [("été", 2), ("êta", 5), ("É", 4), ("étage", 3), ("", 0), ("éT", 1)] = .ok t ∧
      ∃ below within above,
        Segments .ignored 'é' "Té!".toList t.entries.toList below within above ∧
          t.lower 'é' = below.length ∧ ("éT", 1) ∈ within ∧ ("été", 2) ∈ within := by
  obtain ⟨t, ht⟩ : ∃ t, ofEntries .ignored
      [("été", 2), ("êta", 5), ("É", 4), ("étage", 3), ("", 0), ("éT", 1)] = .ok t :=
    exists_ofEntries (by decide +kernel)
  obtain ⟨below, within, above, h, hlower, -, -, hall, -⟩ :=
    segment_holds_matches ht 'é' "Té!".toList
  exact ⟨t, ht, below, within, above, h, hlower,
    hall _ (by decide) (by decide) (by decide +kernel),
    hall _ (by decide) (by decide) (by decide +kernel)⟩

end PegParsing.SymbolTable
