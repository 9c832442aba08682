import PegParsing.Number.Binary
import PegParsing.Number.Integer
import PegParsing.ErrorCode

/-!
# Values

What grammars yield. A dictionary is kept sorted by its keys, character by character, and a key
stands in it once: `get?_insert` says that inserting a key again replaces its value.
-/

namespace PegParsing

/-- A dictionary. -/
abbrev Dict (α : Type) := List (String × α)

namespace Dict

variable {α : Type}

def insert (k : String) (v : α) : Dict α → Dict α
  | [] => [(k, v)]
  | (l, w) :: d =>
    match compare k l with
    | .lt => (k, v) :: (l, w) :: d
    | .eq => (k, v) :: d
    | .gt => (l, w) :: insert k v d

def ofList (es : List (String × α)) : Dict α := es.foldl (fun d e => insert e.1 e.2 d) []

def get? (k : String) : Dict α → Option α
  | [] => none
  | (l, w) :: d => if k = l then some w else get? k d

theorem get?_insert (k l : String) (v : α) (d : Dict α) :
    (d.insert k v).get? l = if l = k then some v else d.get? l := by
  induction d with
  | nil => rfl
  | cons e d ih =>
    obtain ⟨m, w⟩ := e
    unfold insert
    cases hc : compare k m with
    | lt => rfl
    | eq =>
      obtain rfl := Std.LawfulEqOrd.eq_of_compare hc
      simp only [get?]
      split <;> rfl
    | gt =>
      have hne : m ≠ k := fun h => by simp [h] at hc
      simp only [get?, ih]
      by_cases hm : l = m
      · simp [hm, hne]
      · simp [hm]

end Dict

inductive Value where
  /-- What skips yield. -/
  | nothing
  | char (c : Char)
  | str (s : String)
  | bool (b : Bool)
  | int (n : Int)
  | real (format : BinaryFormat) (x : BinaryFloat)
  | list (vs : List Value)
  /-- The values of a sequence. -/
  | tuple (vs : List Value)
  | absent
  | present (v : Value)
  /-- The value of the alternative with a given number. -/
  | variant (index : Nat) (v : Value)
  /-- The value in another type. -/
  | cast (v : Value)
  /-- The value in a type that several alternatives share. -/
  | converted (v : Value)
  | dict (es : List (String × Value))

namespace Value

instance : Inhabited Value := ⟨nothing⟩

/-- The value of a sequence: nothing, one value as it is, or a tuple. -/
def ofPayload : List Value → Value
  | [] => nothing
  | [v] => v
  | vs => tuple vs

/-- The number of elements, or of characters; anything else counts once. -/
def size : Value → Nat
  | list vs => vs.length
  | tuple vs => vs.length
  | dict es => es.length
  | str s => s.length
  | _ => 1

/-- The values of a sequence as a list. -/
def toVec : Value → Value
  | tuple vs => list vs
  | v => v

/-- The value twice. -/
def pair (v : Value) : Value := tuple [v, v]

/-- The code point of a character. -/
def codePoint : Value → Value
  | char c => int c.toNat
  | v => v

/-! ## Conditions -/

def isCharThat (p : Char → Bool) : Value → Bool
  | char c => p c
  | _ => false

/-- An integer of 64 bits for which `p` holds. -/
def isIntThat (p : Int → Bool) : Value → Bool
  | int n => (IntType.mk true 64).contains n && p n
  | _ => false

def hasSize (lo hi : Nat) (v : Value) : Bool := lo ≤ v.size ∧ v.size ≤ hi

/-- The distance of a character from the digit zero, which itself is refused. Distances are
counted in 32 bits: characters before the zero are counted from the top. -/
def aboveZero : Value → Except ErrorCode Value
  | char c => if c = '0' then .error .expectedType else .ok (int (((c.toNat : Int) - 48) % 4294967296))
  | _ => .error .unknown

end Value

end PegParsing
