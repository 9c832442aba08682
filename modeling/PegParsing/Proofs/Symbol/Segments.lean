import PegParsing.Symbol.Table

/-!
# The part of a table that a lookup searches

A lookup halves the table twice. Halving finds a border only where what it asks for holds up to some
entry and fails from there on. Both questions are of that kind, since the keys increase and what is
asked of a key holds of the keys before it (`DownClosed`). So each border cuts off an initial segment
of the entries it is sought in (`exists_border`), and a lookup is a search, from the end, through the
middle one of three segments (`exists_segments`).
-/

namespace PegParsing

/-- What holds of a key holds of all keys that are not behind it. -/
def LetterCase.DownClosed (case : LetterCase) (p : List UInt8 → Bool) : Prop :=
  ∀ a b, (case.order a b).isLE → p b → p a

theorem LetterCase.downClosed_lt (case : LetterCase) (bytes : List UInt8) :
    case.DownClosed fun key => case.order key bytes == .lt := fun _ _ hab hb =>
  beq_iff_eq.2 (Std.TransCmp.lt_of_isLE_of_lt hab (beq_iff_eq.1 hb))

theorem LetterCase.downClosed_ne_gt (case : LetterCase) (bytes : List UInt8) :
    case.DownClosed fun key => case.order key bytes != .gt := by
  intro a b hab hb
  rw [bne_iff_ne, ne_eq, Ordering.ne_gt_iff_isLE] at *
  exact Std.TransCmp.isLE_trans hab hb

namespace SymbolTable

variable {α : Type} {t : SymbolTable α} {before es : List (String × α)}

/-! ## One border -/

theorem keyAt_of_append (h : t.entries.toList = before ++ es) (p : List UInt8 → Bool) {i : Nat}
    (hi : i < es.length) :
    t.keyAt p (before.length + i) = p (Text.utf8 (es[i]).1.toList) := by
  have hget : t.entries[before.length + i]? = some es[i] := by
    rw [← Array.getElem?_toList, h, List.getElem?_append_right (Nat.le_add_right _ _),
      Nat.add_sub_cancel_left, List.getElem?_eq_getElem hi]
  unfold keyAt
  rw [hget]
  rfl

theorem isLE_order_of_append (h : t.entries.toList = before ++ es) {i j : Nat} (hij : i ≤ j)
    (hj : j < es.length) :
    (t.case.order (Text.utf8 (es[i]).1.toList) (Text.utf8 (es[j]).1.toList)).isLE := by
  have hsorted := t.increasing
  rw [h, List.pairwise_append] at hsorted
  rcases Nat.lt_or_eq_of_le hij with hlt | rfl
  · exact Ordering.isLE_of_eq_lt (List.pairwise_iff_getElem.1 hsorted.2.1 i j (by omega) hj hlt)
  · exact Std.ReflCmp.isLE_rfl

theorem keyAt_mono (h : t.entries.toList = before ++ es) {p : List UInt8 → Bool}
    (hp : t.case.DownClosed p) {i j : Nat} (hij : i ≤ j) (hj : j < es.length)
    (hkey : t.keyAt p (before.length + j)) : t.keyAt p (before.length + i) := by
  rw [keyAt_of_append h p hj] at hkey
  rw [keyAt_of_append h p (by omega)]
  exact hp _ _ (isLE_order_of_append h hij hj) hkey

/-- Behind the entries before some place, what is asked for holds of an initial segment, and halving
finds where it ends. -/
theorem exists_border (h : t.entries.toList = before ++ es) {p : List UInt8 → Bool}
    (hp : t.case.DownClosed p) : ∃ inside outside, es = inside ++ outside ∧
      Symbol.border (t.keyAt p) before.length t.size = before.length + inside.length ∧
      (∀ e ∈ inside, p (Text.utf8 e.1.toList) = true) ∧
      ∀ e ∈ outside, p (Text.utf8 e.1.toList) = false := by
  have hsize : t.size = before.length + es.length := by
    rw [← List.length_append, ← h, Array.length_toList]
    rfl
  have mono : ∀ i j, before.length ≤ i → i ≤ j → j < t.size → t.keyAt p j → t.keyAt p i := by
    intro i j hi hij hj
    -- both are indices of `es`, moved by the entries before it
    obtain ⟨i, rfl⟩ := Nat.exists_eq_add_of_le hi
    obtain ⟨j, rfl⟩ := Nat.exists_eq_add_of_le (Nat.le_trans hi hij)
    exact keyAt_mono h hp (by omega) (by omega)
  obtain ⟨hlo, hhi, hinside, houtside⟩ := Symbol.border_spec (by omega) mono
  obtain ⟨n, hn⟩ := Nat.exists_eq_add_of_le hlo
  rw [hn] at hhi hinside houtside
  refine ⟨es.take n, es.drop n, (List.take_append_drop n es).symm, ?_, fun e he => ?_, fun e he => ?_⟩
  · rw [hn, List.length_take, Nat.min_eq_left (by omega)]
  · obtain ⟨i, hi, rfl⟩ := List.mem_take_iff_getElem.1 he
    rw [← keyAt_of_append h p (by omega)]
    exact hinside _ (by omega) (by omega)
  · obtain ⟨i, hi, rfl⟩ := List.mem_drop_iff_getElem.1 he
    rw [← keyAt_of_append h p (by omega)]
    exact houtside _ (by omega) (by omega)

/-! ## Both borders -/

/-- The entries before the first character of the text `c :: cs`, the others that are not behind the
whole text, and those behind it. -/
structure Segments (case : LetterCase) (c : Char) (cs : List Char)
    (es below within above : List (String × α)) : Prop where
  eq_append : es = below ++ (within ++ above)
  order_below : ∀ e ∈ below, case.order (Text.utf8 e.1.toList) (Text.utf8 [c]) = .lt
  order_from : ∀ e ∈ within ++ above, case.order (Text.utf8 e.1.toList) (Text.utf8 [c]) ≠ .lt
  order_within : ∀ e ∈ within, case.order (Text.utf8 e.1.toList) (Text.utf8 (c :: cs)) ≠ .gt
  order_above : ∀ e ∈ above, case.order (Text.utf8 e.1.toList) (Text.utf8 (c :: cs)) = .gt

/-- The number of entries before the first character of a text. -/
def lower (t : SymbolTable α) (c : Char) : Nat :=
  Symbol.border (t.keyAt fun key => t.case.order key (Text.utf8 [c]) == .lt) 0 t.size

/-- Where the entries end, from a border on, that are not behind a text. -/
def upper (t : SymbolTable α) (lo : Nat) (text : List Char) : Nat :=
  Symbol.border (t.keyAt fun key => t.case.order key (Text.utf8 text) != .gt) lo t.size

theorem lookup_cons (t : SymbolTable α) (c : Char) (cs : List Char) :
    t.lookup (c :: cs) =
      (t.entries.extract (t.lower c) (t.upper (t.lower c) (c :: cs))).toList.reverse.find? fun e =>
        t.case.isPrefixOf (Text.utf8 e.1.toList) (Text.utf8 (c :: cs)) := rfl

/-- The borders that a lookup finds cut the entries in three, and it searches what is between them. -/
theorem exists_segments (t : SymbolTable α) (c : Char) (cs : List Char) :
    ∃ below within above, Segments t.case c cs t.entries.toList below within above ∧
      t.lower c = below.length ∧
      t.upper below.length (c :: cs) = below.length + within.length ∧
      t.lookup (c :: cs) = within.reverse.find? fun e =>
        t.case.isPrefixOf (Text.utf8 e.1.toList) (Text.utf8 (c :: cs)) := by
  obtain ⟨below, rest, hes, hlower, hbelow, hfrom⟩ :=
    exists_border (List.nil_append t.entries.toList).symm (t.case.downClosed_lt (Text.utf8 [c]))
  obtain ⟨within, above, rfl, hupper, hwithin, habove⟩ :=
    exists_border hes (t.case.downClosed_ne_gt (Text.utf8 (c :: cs)))
  have hsegments : Segments t.case c cs t.entries.toList below within above :=
    { eq_append := hes
      order_below := fun e he => beq_iff_eq.1 (hbelow e he)
      order_from := fun e he => beq_eq_false_iff_ne.1 (hfrom e he)
      order_within := fun e he => bne_iff_ne.1 (hwithin e he)
      order_above := fun e he => bne_eq_false_iff_eq.1 (habove e he) }
  have hlo : t.lower c = below.length := hlower.trans (Nat.zero_add _)
  have hhi : t.upper below.length (c :: cs) = below.length + within.length := hupper
  refine ⟨below, within, above, hsegments, hlo, hhi, ?_⟩
  rw [lookup_cons, hlo, hhi, Array.toList_extract, List.extract_eq_take_drop, hes,
    Nat.add_sub_cancel_left, List.drop_left, List.take_left]

end SymbolTable

end PegParsing
