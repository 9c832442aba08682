import PegParsing.Catalog.Json
import PegParsing.Proofs.Number.Numeral
import PegParsing.Proofs.Value.Dict

/-!
# How JSON values are written

`Written w v` says that `w` is a way to write the value `v`, and `Document` allows white space around
it. The parser does not occur here: the relation says of each sort of value which texts stand for it.
White space may stand around brackets, commas and colons; a dictionary keeps the last of the members
with one key.
-/

namespace PegParsing.Catalog.Json

/-- A text without quotes, between quotes. -/
def Quoted (s : String) (w : List Char) : Prop := '"' ∉ s.toList ∧ w = '"' :: (s.toList ++ ['"'])

/-- A member of a dictionary, and the parts of its text: the key in quotes, the colon and the body. -/
structure Member where
  key : String
  value : Value
  quoted : List Char
  colon : List Char
  body : List Char

namespace Member

def text (m : Member) : List Char := m.quoted ++ (m.colon ++ m.body)

def entry (m : Member) : String × Value := (m.key, m.value)

/-- The key and the colon are written as they should be. -/
def Labelled (m : Member) : Prop := Quoted m.key m.quoted ∧ Padded ':' m.colon

end Member

/-- The text is a way to write the value. -/
inductive Written : List Char → Value → Prop
  | string {s : String} {w : List Char} : Quoted s w → Written w (.str s)
  | number {w : List Char} {d : Decimal} : Decimal.IsNumeral w d → BinaryFormat.double.InRange d →
      Written w (.real .double (BinaryFormat.double.ofDecimal d))
  | true : Written "true".toList (.bool true)
  | false : Written "false".toList (.bool false)
  | null : Written "null".toList .nothing
  | list {l w r : List Char} {es : List (List Char × Value)} : Padded '[' l → Padded ']' r →
      Separated (Padded ',') (es.map Prod.fst) w → (∀ e ∈ es, Written e.1 e.2) →
      Written (l ++ (w ++ r)) (.list (es.map Prod.snd))
  | dict {l w r : List Char} {ms : List Member} {d : Dict Value} : Padded '\x7b' l → Padded '\x7d' r →
      Separated (Padded ',') (ms.map Member.text) w → (∀ m ∈ ms, m.Labelled) →
      (∀ m ∈ ms, Written m.body m.value) → d.Increasing →
      (∀ k, d.get? k = Dict.lastValue? k (ms.map Member.entry)) → Written (l ++ (w ++ r)) (.dict d)

/-- The text is a way to write the value, with white space around it. -/
def Document (text : List Char) (v : Value) : Prop :=
  ∃ a w b, Spaces a ∧ Spaces b ∧ Written w v ∧ text = a ++ (w ++ b)

end PegParsing.Catalog.Json
