import Mathlib.Tactic.SplitIfs
import PegParsing.Text.Case

/-!
# Folding texts by characters

Comparisons fold bytes, but a fold never looks inside a character: ASCII letters are single bytes,
and no byte of a longer character is one. So folding the bytes of a text gives the bytes of the text
with its characters folded (`foldAll_utf8`). A folded key that begins a folded text therefore ends
at a border of characters of that text, at its own byte length (`exists_append_of_foldAll`). In the
order of keys it is not behind that text (`isLE_order_of_prefix`).
-/

namespace PegParsing.LetterCase

/-- The character that stands for `c` in comparisons. -/
def foldChar : LetterCase → Char → Char
  | exact, c => c
  | ignored, c => c.toLower

@[simp] theorem map_foldChar_exact (cs : List Char) : cs.map exact.foldChar = cs := List.map_id cs

theorem fold_of_le (case : LetterCase) {b : UInt8} (h : 128 ≤ b) : case.fold b = b := by
  cases case with
  | exact => rfl
  | ignored =>
    refine if_neg fun hb => ?_
    have h₁ : 128 ≤ b.toNat := h
    have h₂ : b.toNat ≤ 90 := hb.2
    omega

theorem foldAll_of_le (case : LetterCase) {bytes : List UInt8} (h : ∀ b ∈ bytes, 128 ≤ b) :
    case.foldAll bytes = bytes := by
  unfold foldAll
  rw [List.map_congr_left fun b hb => case.fold_of_le (h b hb)]
  exact List.map_id bytes

/-- The bytes of a character outside ASCII are outside ASCII. -/
theorem le_of_mem_utf8EncodeChar {c : Char} (hc : 128 ≤ c.toNat) {b : UInt8}
    (hb : b ∈ String.utf8EncodeChar c) : 128 ≤ b := by
  change 128 ≤ c.val.toNat at hc
  show 128 ≤ b.toNat
  unfold String.utf8EncodeChar at hb
  simp only at hb
  split_ifs at hb <;> simp only [List.mem_cons, List.not_mem_nil, or_false] at hb <;>
    rcases hb with rfl | rfl | rfl | rfl <;> simp only [UInt8.toNat_ofNat'] <;> omega

theorem foldChar_of_le (case : LetterCase) {c : Char} (hc : 128 ≤ c.toNat) : case.foldChar c = c := by
  cases case with
  | exact => rfl
  | ignored =>
    refine dif_neg fun h => ?_
    have h₁ : 128 ≤ c.val.toNat := hc
    have h₂ : c.val.toNat ≤ 90 := h.2
    omega

theorem foldAll_utf8EncodeChar (case : LetterCase) (c : Char) :
    case.foldAll (String.utf8EncodeChar c) = String.utf8EncodeChar (case.foldChar c) := by
  by_cases hc : c.toNat < 128
  · have ascii : ∀ case : LetterCase, ∀ n < 128, case.foldAll (String.utf8EncodeChar (Char.ofNat n)) =
        String.utf8EncodeChar (case.foldChar (Char.ofNat n)) := by
      intro case
      cases case <;> decide +kernel
    have h := ascii case c.toNat hc
    rwa [Char.ofNat_toNat] at h
  · have hle : 128 ≤ c.toNat := Nat.le_of_not_lt hc
    rw [case.foldChar_of_le hle, foldAll_of_le]
    exact fun b hb => le_of_mem_utf8EncodeChar hle hb

/-- Folding the bytes of a text is folding its characters. -/
theorem foldAll_utf8 (case : LetterCase) (cs : List Char) :
    case.foldAll (Text.utf8 cs) = Text.utf8 (cs.map case.foldChar) := by
  induction cs with
  | nil => rfl
  | cons c cs ih =>
    unfold Text.utf8 at *
    rw [List.flatMap_cons, foldAll_append, foldAll_utf8EncodeChar, ih]
    rfl

/-- Folded bytes begin with others just if folded characters do. -/
theorem foldAll_utf8_prefix_iff {case : LetterCase} {cs ds : List Char} :
    case.foldAll (Text.utf8 cs) <+: case.foldAll (Text.utf8 ds) ↔
      cs.map case.foldChar <+: ds.map case.foldChar := by
  rw [foldAll_utf8, foldAll_utf8]
  constructor
  · rintro ⟨x, hx⟩
    obtain ⟨s, hs, -⟩ := Text.exists_append_of_utf8 hx.symm
    exact ⟨s, hs.symm⟩
  · rintro ⟨s, hs⟩
    exact ⟨Text.utf8 s, by rw [← hs, Text.utf8_append]⟩

theorem byteLength_map_foldChar (case : LetterCase) (cs : List Char) :
    Text.byteLength (cs.map case.foldChar) = Text.byteLength cs := by
  rw [← Text.length_utf8, ← foldAll_utf8, length_foldAll, Text.length_utf8]

/-- A text whose folded bytes begin with a folded key begins with characters that fold to the key. -/
theorem exists_append_of_foldAll {case : LetterCase} {key text : List Char} {x : List UInt8}
    (h : case.foldAll (Text.utf8 text) = case.foldAll (Text.utf8 key) ++ x) :
    ∃ p s, text = p ++ s ∧ p.map case.foldChar = key.map case.foldChar ∧
      Text.byteLength p = Text.byteLength key := by
  rw [foldAll_utf8, foldAll_utf8] at h
  obtain ⟨r, hr, -⟩ := Text.exists_append_of_utf8 h
  obtain ⟨p, s, rfl, hp, -⟩ := List.map_eq_append_iff.1 hr
  refine ⟨p, s, rfl, hp, ?_⟩
  rw [← case.byteLength_map_foldChar p, hp, case.byteLength_map_foldChar]

/-! ## Keys that begin a text -/

theorem isPrefixOf_iff {case : LetterCase} {key text : List UInt8} :
    case.isPrefixOf key text ↔ case.foldAll key <+: case.foldAll text := by
  unfold isPrefixOf
  rw [decide_eq_true_iff, order_eq_iff, List.prefix_iff_eq_take, length_foldAll]
  unfold foldAll
  rw [List.map_take]
  constructor
  · exact And.right
  · intro h
    refine ⟨?_, h⟩
    have hlen := congrArg List.length h
    rw [List.length_map, List.length_take, List.length_map] at hlen
    omega

theorem isLE_compare_append (a b : List UInt8) : (compare a (a ++ b)).isLE := by
  induction a with
  | nil => exact List.isLE_compare_nil_left
  | cons x a ih =>
    rw [List.cons_append, List.compare_cons_cons, Std.ReflOrd.compare_self]
    exact ih

/-- A key is not behind the texts that it begins. -/
theorem isLE_order_of_prefix {case : LetterCase} {key text : List UInt8}
    (h : case.foldAll key <+: case.foldAll text) : (case.order key text).isLE := by
  obtain ⟨s, hs⟩ := h
  unfold order
  rw [← hs]
  exact isLE_compare_append _ s

end PegParsing.LetterCase
