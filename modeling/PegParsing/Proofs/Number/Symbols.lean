import PegParsing.Proofs.Number.Numeral
import PegParsing.Proofs.Symbol.LongestMatch

/-!
# Symbols of real numbers

`RealFormat.IsSymbol` spells the names of infinities and of "not a number", with their values. The table
that the parser looks into holds just them (`isSymbol_iff`), so it reads a symbol wherever one stands and
nothing else (`symbol_eq_success`). No symbol begins as a numeral does (`not_isSymbol_of_isNumeral`).
-/

namespace PegParsing.RealFormat

open PegParsing.Parser Decimal

variable {w s : List Char} {x : BinaryFloat}

/-- The name of an infinity or of "not a number", in any case and with a sign or none, and its value. -/
inductive IsSymbol : List Char → BinaryFloat → Prop
  | infinite {sign name : List Char} {negative : Bool} : IsSign sign negative →
      name.map Char.toLower = ['i', 'n', 'f'] → IsSymbol (sign ++ name) (.infinite negative)
  | nan {sign name : List Char} {negative : Bool} : IsSign sign negative →
      name.map Char.toLower = ['n', 'a', 'n'] → IsSymbol (sign ++ name) .nan

/-! ## Lookups -/

/-- The keys are in lower case, and none of them begins with another. -/
theorem symbolTable_keys : (∀ e ∈ symbolTable.entries.toList, e.1 ≠ "" ∧
    e.1.toList.map Char.toLower = e.1.toList) ∧
      ∀ e ∈ symbolTable.entries.toList, ∀ e' ∈ symbolTable.entries.toList,
        e.1.toList <+: e'.1.toList → e = e' := by
  decide

theorem matches_iff {e : String × BinaryFloat} (he : e ∈ symbolTable.entries.toList)
    {text : List Char} : SymbolTable.Matches .ignored text e ↔
      e.1.toList <+: text.map Char.toLower := by
  obtain ⟨hne, hlower⟩ := symbolTable_keys.1 e he
  unfold SymbolTable.Matches
  rw [and_iff_right hne, LetterCase.foldAll_utf8_prefix_iff]
  show e.1.toList.map Char.toLower <+: text.map Char.toLower ↔ _
  rw [hlower]

/-- A lookup finds the one key that the text begins with, in any case. -/
theorem lookup_eq_some_iff {text : List Char} {e : String × BinaryFloat} :
    symbolTable.lookup text = some e ↔
      e ∈ symbolTable.entries.toList ∧ e.1.toList <+: text.map Char.toLower := by
  have hfound : ∀ {e}, symbolTable.lookup text = some e →
      e ∈ symbolTable.entries.toList ∧ e.1.toList <+: text.map Char.toLower := by
    intro e h
    obtain ⟨hmatch, before, after, hes, -⟩ := SymbolTable.lookup_eq_some_iff.1 h
    have hmem : e ∈ symbolTable.entries.toList := by
      rw [hes]
      exact List.mem_append_right before List.mem_cons_self
    exact ⟨hmem, (matches_iff hmem).1 hmatch⟩
  refine ⟨hfound, fun ⟨hmem, hstart⟩ => ?_⟩
  cases hl : symbolTable.lookup text with
  | none => exact absurd ((matches_iff hmem).2 hstart) (SymbolTable.lookup_eq_none_iff.1 hl e hmem)
  | some e' =>
    obtain ⟨hmem', hstart'⟩ := hfound hl
    -- of two keys that the text begins with, one begins with the other
    rcases List.prefix_or_prefix_of_prefix hstart hstart' with h | h
    · rw [symbolTable_keys.2 e hmem e' hmem' h]
    · rw [symbolTable_keys.2 e' hmem' e hmem h]

/-! ## The keys and the symbols -/

/-- Behind its sign, if it has one, each key has one of two names, and the value that goes with it. -/
theorem symbolTable_names : ∀ e ∈ symbolTable.entries.toList,
    (takeSign e.1.toList).2 = ['i', 'n', 'f'] ∧ e.2 = .infinite (takeSign e.1.toList).1 ∨
      (takeSign e.1.toList).2 = ['n', 'a', 'n'] ∧ e.2 = .nan := by
  decide

/-- What stands before the lower-case letters is the lower case of itself alone. -/
theorem eq_of_toLower_eq {c d : Char} (h : c.toLower = d) (hd : d.toNat < 97) : c = d := by
  unfold Char.toLower at h
  split at h
  · rename_i hup
    have hc : (c.val + 32).toNat = c.toNat + 32 := by
      rw [UInt32.toNat_add]
      exact Nat.mod_eq_of_lt (Nat.lt_of_le_of_lt (Nat.add_le_add_right hup.2 32) (by decide))
    have hle : 65 ≤ c.toNat := hup.1
    rw [← h] at hd
    change (c.val + 32).toNat < 97 at hd
    omega
  · exact h

theorem map_toLower_of_isSign {sign : List Char} {negative : Bool} (h : IsSign sign negative) :
    sign.map Char.toLower = sign := by
  cases h <;> rfl

/-- A text in lower case has no sign that it had not before. -/
theorem exists_sign_append_of_toLower {sign name w : List Char} {negative : Bool}
    (hsign : IsSign sign negative) (h : w.map Char.toLower = sign ++ name) :
    ∃ t, w = sign ++ t ∧ t.map Char.toLower = name := by
  obtain ⟨u, t, rfl, hu, ht⟩ := List.map_eq_append_iff.1 h
  suffices hsame : u = sign from ⟨t, by rw [hsame], ht⟩
  cases hsign with
  | absent => exact List.map_eq_nil_iff.1 hu
  | plus | minus =>
    obtain ⟨c, rfl, hc⟩ := List.map_eq_singleton_iff.1 hu
    rw [eq_of_toLower_eq hc (by decide)]

/-- The symbols are the keys, in any case. -/
theorem isSymbol_iff : IsSymbol w x ↔
    ∃ key, (key, x) ∈ symbolTable.entries.toList ∧ w.map Char.toLower = key.toList := by
  constructor
  · rintro (⟨hsign, hname⟩ | ⟨hsign, hname⟩)
    all_goals rw [List.map_append, map_toLower_of_isSign hsign, hname]
    all_goals exact ⟨.ofList _, by cases hsign <;> decide, String.toList_ofList.symm⟩
  · rintro ⟨key, hmem, hw⟩
    obtain ⟨sign, hsign, hkey⟩ := takeSign_spec key.toList
    rw [hkey] at hw
    obtain ⟨name, rfl, hname⟩ := exists_sign_append_of_toLower hsign hw
    rcases symbolTable_names _ hmem with ⟨hinf, hx⟩ | ⟨hnan, hx⟩
    · rw [show x = _ from hx]
      exact .infinite hsign (hname.trans hinf)
    · rw [show x = _ from hx]
      exact .nan hsign (hname.trans hnan)

/-- What a lookup finds is a symbol at the beginning of the text, as long as its key. -/
theorem isSymbol_of_lookup {text : List Char} {key : String}
    (h : symbolTable.lookup text = some (key, x)) :
    ∃ w s, text = w ++ s ∧ IsSymbol w x ∧ Text.byteLength key.toList = Text.byteLength w := by
  obtain ⟨hmem, u, hu⟩ := lookup_eq_some_iff.1 h
  obtain ⟨w, s, rfl, hw, -⟩ := List.map_eq_append_iff.1 hu.symm
  refine ⟨w, s, rfl, isSymbol_iff.2 ⟨key, hmem, hw⟩, ?_⟩
  rw [← hw]
  exact LetterCase.byteLength_map_foldChar .ignored w

/-- The parser reads the symbol that the text begins with. -/
theorem symbol_eq_success {here stop c : Cursor} :
    symbolTable.parser here stop = some (.success c x) ↔
      ∃ w s, here.rest stop = w ++ s ∧ IsSymbol w x ∧ c = here.advance (Text.byteLength w) := by
  unfold SymbolTable.parser
  constructor
  · intro h
    split at h
    · rename_i key v hl
      cases h
      obtain ⟨w, s, hrest, hw, hlength⟩ := isSymbol_of_lookup hl
      exact ⟨w, s, hrest, hw, by rw [hlength]⟩
    · cases h
  · rintro ⟨w, s, hrest, hw, rfl⟩
    obtain ⟨key, hmem, hkey⟩ := isSymbol_iff.1 hw
    have hstart : key.toList <+: (here.rest stop).map Char.toLower := by
      rw [hrest, List.map_append, hkey]
      exact List.prefix_append _ _
    rw [lookup_eq_some_iff.2 ⟨hmem, hstart⟩]
    show some (Parsed.success (here.advance (Text.byteLength key.toList)) x) = _
    rw [← hkey]
    exact congrArg (fun n => some (Parsed.success (here.advance n) x))
      (LetterCase.byteLength_map_foldChar .ignored w)

/-! ## Symbols and numerals -/

/-- Behind its sign, if it has one, a symbol has a letter. -/
theorem IsSymbol.exists_sign_append (h : IsSymbol w x) :
    ∃ sign negative c t, IsSign sign negative ∧ w = sign ++ c :: t ∧
      (c.toLower = 'i' ∨ c.toLower = 'n') := by
  rcases h with ⟨hsign, hname⟩ | ⟨hsign, hname⟩
  all_goals obtain ⟨c, t, rfl, hc, -⟩ := List.map_eq_cons_iff.1 hname
  · exact ⟨_, _, c, t, hsign, rfl, .inl hc⟩
  · exact ⟨_, _, c, t, hsign, rfl, .inr hc⟩

/-- What stands behind the sign of a text. -/
theorem takeSign_append_cons {sign : List Char} {negative : Bool} (h : IsSign sign negative) {c : Char}
    (hc : c ≠ '+' ∧ c ≠ '-') (t : List Char) : takeSign (sign ++ c :: t) = (negative, c :: t) := by
  refine takeSign_append h fun d u hd => ?_
  rw [← (List.cons.inj hd).1, Bool.or_eq_false_iff, beq_eq_false_iff_ne, beq_eq_false_iff_ne]
  exact hc

/-- A digit is no sign and no letter that a symbol begins with, nor is a point. -/
theorem ne_of_isDigit_or_point {c : Char} (h : Predicate.isDigit c = true ∨ c = '.') :
    (c ≠ '+' ∧ c ≠ '-') ∧ c.toLower ≠ 'i' ∧ c.toLower ≠ 'n' := by
  rcases h with h | rfl
  · rw [isDigit_iff] at h
    have hlower : c.toLower = c := dif_neg fun hup => by
      have hle : 65 ≤ c.toNat := hup.1
      omega
    rw [hlower]
    refine ⟨⟨?_, ?_⟩, ?_, ?_⟩ <;> rintro rfl <;> revert h <;> decide
  · decide

/-- No symbol stands where a numeral does. -/
theorem not_isSymbol_of_isNumeral {d : Decimal} (h : IsNumeral w d) {w' s' : List Char}
    (heq : w ++ s = w' ++ s') : ¬ IsSymbol w' x := by
  intro h'
  obtain ⟨sign, negative, c, t, hsign, rfl, hc⟩ := h.exists_sign_append
  obtain ⟨sign', negative', l, r, hsign', rfl, hl⟩ := h'.exists_sign_append
  obtain ⟨hplain, hi, hn⟩ := ne_of_isDigit_or_point hc
  have hletter : l ≠ '+' ∧ l ≠ '-' := by
    constructor <;> rintro rfl <;> revert hl <;> decide
  -- both ways to write the text have the same sign, and the same character behind it
  rw [List.append_assoc, List.append_assoc, List.cons_append, List.cons_append] at heq
  have hboth := takeSign_append_cons hsign hplain (t ++ s)
  rw [heq, takeSign_append_cons hsign' hletter] at hboth
  obtain ⟨rfl, -⟩ := List.cons.inj (Prod.mk.inj hboth).2
  exact hl.elim hi hn

theorem lookup_eq_none {d : Decimal} (h : IsNumeral w d) (s : List Char) :
    symbolTable.lookup (w ++ s) = none := by
  refine Option.eq_none_iff_forall_ne_some.2 fun e he => ?_
  obtain ⟨w', s', heq, hw', -⟩ := isSymbol_of_lookup he
  exact not_isSymbol_of_isNumeral h heq hw'

end PegParsing.RealFormat
