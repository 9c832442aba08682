import PegParsing.Text.ExtendingMark
import PegParsing.Text.Unprintable

/-!
# Quoted texts

A text is shown in double quotes. A backslash marks what would not read well: the quote, the
backslash itself, the common control characters by a letter, and by its code each other character
that has no form of its own or would join the one before it. Everything else stands for itself.
-/

namespace PegParsing.Text

/-- Characters that the eye could miss or take for a part of their neighbour. -/
def isHidden (c : Char) : Bool := isExtendingMark c || isUnprintable c

/-- A code point in hexadecimal digits. -/
def codeDigits (c : Char) : List Char := Nat.toDigits 16 c.toNat

def quoteChar : Char → List Char
  | '"' => ['\\', '"']
  | '\\' => ['\\', '\\']
  | '\n' => ['\\', 'n']
  | '\t' => ['\\', 't']
  | '\r' => ['\\', 'r']
  | '\x00' => ['\\', '0']
  | c => if isHidden c then ['\\', 'u', '\x7b'] ++ codeDigits c ++ ['\x7d'] else [c]

def quoted (s : String) : String :=
  String.ofList (('"' :: s.toList.flatMap quoteChar) ++ ['"'])

/-- ASCII has no hidden characters but its controls. -/
theorem isHidden_ascii : ∀ n : Fin 128, isHidden (Char.ofNat n) = (n.val < 32 || n.val = 127) := by
  decide +kernel

theorem quoteChar_of_plain {c : Char} (h : isHidden c = false) (hq : c ≠ '"') (hb : c ≠ '\\') :
    quoteChar c = [c] := by
  have control (n : Nat) (hn : n < 32) : isHidden (Char.ofNat n) = true := by
    simp [isHidden_ascii ⟨n, by omega⟩, hn]
  unfold quoteChar
  split
  · contradiction
  · contradiction
  · exact absurd h (by simp [control 10])
  · exact absurd h (by simp [control 9])
  · exact absurd h (by simp [control 13])
  · exact absurd h (by simp [control 0])
  · simp [h]

end PegParsing.Text
