import PegParsing.Text.Utf8

/-!
# Case

Texts are compared by their bytes, either as they are or with ASCII letters in lower case. Folding
keeps the number of bytes, and no byte of a character outside ASCII is a letter, so characters
outside ASCII are always told apart.
-/

namespace PegParsing

inductive LetterCase where
  | exact
  | ignored
  deriving DecidableEq, Repr

namespace LetterCase

/-- The byte that stands for `b` in comparisons. -/
def fold : LetterCase → UInt8 → UInt8
  | exact, b => b
  | ignored, b => if 65 ≤ b ∧ b ≤ 90 then b + 32 else b

def foldAll (case : LetterCase) (bytes : List UInt8) : List UInt8 := bytes.map case.fold

/-- The lexicographic order of folded bytes. -/
def order (case : LetterCase) (a b : List UInt8) : Ordering := compare (case.foldAll a) (case.foldAll b)

/-- The bytes `text` begin with `key`. -/
def isPrefixOf (case : LetterCase) (key text : List UInt8) : Bool :=
  key.length ≤ text.length ∧ case.order key (text.take key.length) = .eq

@[simp] theorem length_foldAll (case : LetterCase) (bytes : List UInt8) :
    (case.foldAll bytes).length = bytes.length := by
  simp [foldAll]

theorem foldAll_append (case : LetterCase) (a b : List UInt8) :
    case.foldAll (a ++ b) = case.foldAll a ++ case.foldAll b := by
  simp [foldAll]

theorem order_eq_iff {case : LetterCase} {a b : List UInt8} :
    case.order a b = .eq ↔ case.foldAll a = case.foldAll b := by
  simp [order]

/-- Comparing by what bytes stand for is an order, whatever they stand for. -/
instance (case : LetterCase) : Std.TransCmp case.order where
  eq_swap {a b} := (Std.OrientedOrd.eq_swap : compare (case.foldAll a) (case.foldAll b) = _)
  isLE_trans {a _ c} hab hbc :=
    (Std.TransOrd.isLE_trans hab hbc : (compare (case.foldAll a) (case.foldAll c)).isLE)

end LetterCase

end PegParsing
