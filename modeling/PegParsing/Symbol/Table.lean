import PegParsing.BuildError
import PegParsing.Parser.Basic
import PegParsing.Symbol.Search
import PegParsing.Text.Case

/-!
# Symbol tables

A symbol table gives values to keys. It is kept in strictly increasing order of its keys, which
also says that no key stands in it twice. `ofEntries` sorts; keys that are equal end up side by
side, and the later of the first such pair is reported.

As a parser, a table reads the longest key that the rest of the text begins with. All candidates
stand between two borders: their keys are not before the first character of the text, and not
behind the whole text. Of two keys that the text begins with, the longer one is the later one, so
the search goes backwards. The empty key is before every character and is never found.
-/

namespace PegParsing

/-- How the keys of two entries compare. -/
def LetterCase.keyOrder {α : Type} (case : LetterCase) (a b : String × α) : Ordering :=
  case.order (Text.utf8 a.1.toList) (Text.utf8 b.1.toList)

structure SymbolTable (α : Type) where
  case : LetterCase
  entries : Array (String × α)
  increasing : entries.toList.Pairwise fun a b => case.keyOrder a b = .lt

namespace SymbolTable

variable {α : Type}

/-! ## Building -/

/-- The second key of the first two neighbours with equal keys. -/
def firstRepeat? (case : LetterCase) : List (String × α) → Option String
  | a :: b :: es => if case.keyOrder a b = .eq then some b.1 else firstRepeat? case (b :: es)
  | _ => none

/-- The entries in the order of their keys. Entries with equal keys keep their order. -/
def sort (case : LetterCase) (es : List (String × α)) : List (String × α) :=
  es.mergeSort fun a b => (case.keyOrder a b).isLE

instance (case : LetterCase) : Std.TransCmp (case.keyOrder (α := α)) where
  eq_swap {a b} :=
    (Std.OrientedCmp.eq_swap : case.order (Text.utf8 a.1.toList) (Text.utf8 b.1.toList) = _)
  isLE_trans {a _ c} hab hbc :=
    (Std.TransCmp.isLE_trans hab hbc :
      (case.order (Text.utf8 a.1.toList) (Text.utf8 c.1.toList)).isLE)

theorem keyOrder_total (case : LetterCase) (a b : String × α) :
    ((case.keyOrder a b).isLE || (case.keyOrder b a).isLE) = true := by
  have hswap : case.keyOrder b a = (case.keyOrder a b).swap := Std.OrientedCmp.eq_swap
  rw [hswap]
  cases case.keyOrder a b <;> rfl

theorem pairwise_sort (case : LetterCase) (es : List (String × α)) :
    (sort case es).Pairwise fun a b => (case.keyOrder a b).isLE :=
  List.pairwise_mergeSort (fun _ _ _ => Std.TransCmp.isLE_trans) (keyOrder_total case) es

theorem increasing_of_firstRepeat? {case : LetterCase} {es : List (String × α)}
    (hle : es.Pairwise fun a b => (case.keyOrder a b).isLE) (h : firstRepeat? case es = none) :
    es.Pairwise fun a b => case.keyOrder a b = .lt := by
  fun_induction firstRepeat? case es with
  | case1 => simp at h
  | case2 a b es hne ih =>
    have hbs := ih (List.pairwise_cons.1 hle).2 h
    have hab : case.keyOrder a b = .lt := by
      have := (List.pairwise_cons.1 hle).1 b List.mem_cons_self
      cases hc : case.keyOrder a b <;> simp_all
    refine List.pairwise_cons.2 ⟨fun x hx => ?_, hbs⟩
    rcases List.mem_cons.1 hx with rfl | hx
    · exact hab
    · exact Std.TransCmp.lt_trans hab ((List.pairwise_cons.1 hbs).1 x hx)
  | case3 es hes =>
    match es, hes with
    | [], _ => exact List.Pairwise.nil
    | [a], _ => exact List.pairwise_singleton _ a
    | a :: b :: es, hes => exact absurd rfl (hes a b es)

/-- The table of the given entries, in any order. -/
def ofEntries (case : LetterCase) (es : List (String × α)) : Except BuildError (SymbolTable α) :=
  match h : firstRepeat? case (sort case es) with
  | some key => .error (.duplicateSymbol key)
  | none => .ok ⟨case, (sort case es).toArray, increasing_of_firstRepeat? (pairwise_sort case es) h⟩

/-! ## Looking up -/

def size (t : SymbolTable α) : Nat := t.entries.size

def isEmpty (t : SymbolTable α) : Bool := t.entries.isEmpty

/-- Whether something holds of the key bytes of the entry with a given index. -/
def keyAt (t : SymbolTable α) (p : List UInt8 → Bool) (i : Nat) : Bool :=
  t.entries[i]?.any fun e => p (Text.utf8 e.1.toList)

/-- The entry with the longest key that `text` begins with. -/
def lookup (t : SymbolTable α) : List Char → Option (String × α)
  | [] => none
  | c :: cs =>
    let first := Text.utf8 [c]
    let bytes := Text.utf8 (c :: cs)
    let lo := Symbol.border (t.keyAt fun key => t.case.order key first == .lt) 0 t.size
    let hi := Symbol.border (t.keyAt fun key => t.case.order key bytes != .gt) lo t.size
    (t.entries.extract lo hi).toList.reverse.find? fun e =>
      t.case.isPrefixOf (Text.utf8 e.1.toList) bytes

/-- The value of the longest key that follows. -/
def parser (t : SymbolTable α) : Parser α := fun here stop =>
  match t.lookup (here.rest stop) with
  | some (key, v) => some (.success (here.advance (Text.byteLength key.toList)) v)
  | none => some (.failure here .symbolNotFound)

end SymbolTable

end PegParsing
