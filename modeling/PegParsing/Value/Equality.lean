import PegParsing.Value

/-!
# When values are the same

`same` compares values part by part, and `same_iff` says that it decides equality. So what a grammar
yields on a given text can be checked by evaluation.
-/

namespace PegParsing

namespace Value

mutual

/-- Whether two values are the same. -/
def same : Value → Value → Bool
  | nothing, nothing => true
  | char c, char d => c = d
  | str s, str t => s = t
  | bool a, bool b => a = b
  | int m, int n => m = n
  | real f x, real g y => f = g ∧ x = y
  | list vs, list ws => sameList vs ws
  | tuple vs, tuple ws => sameList vs ws
  | absent, absent => true
  | present v, present w => same v w
  | variant i v, variant j w => i = j ∧ same v w
  | cast v, cast w => same v w
  | converted v, converted w => same v w
  | dict es, dict fs => sameEntries es fs
  | _, _ => false

def sameList : List Value → List Value → Bool
  | [], [] => true
  | v :: vs, w :: ws => same v w && sameList vs ws
  | _, _ => false

def sameEntries : List (String × Value) → List (String × Value) → Bool
  | [], [] => true
  | (k, v) :: es, (l, w) :: fs => k = l ∧ same v w ∧ sameEntries es fs
  | _, _ => false

end

mutual

theorem same_iff : ∀ v w : Value, same v w ↔ v = w
  | nothing, w => by cases w <;> simp [same]
  | char _, w => by cases w <;> simp [same]
  | str _, w => by cases w <;> simp [same]
  | bool _, w => by cases w <;> simp [same]
  | int _, w => by cases w <;> simp [same]
  | real _ _, w => by cases w <;> simp [same]
  | absent, w => by cases w <;> simp [same]
  | list vs, w => by cases w <;> simp [same, sameList_iff vs]
  | tuple vs, w => by cases w <;> simp [same, sameList_iff vs]
  | present v, w => by cases w <;> simp [same, same_iff v]
  | variant _ v, w => by cases w <;> simp [same, same_iff v]
  | cast v, w => by cases w <;> simp [same, same_iff v]
  | converted v, w => by cases w <;> simp [same, same_iff v]
  | dict es, w => by cases w <;> simp [same, sameEntries_iff es]

theorem sameList_iff : ∀ vs ws : List Value, sameList vs ws ↔ vs = ws
  | [], ws => by cases ws <;> simp [sameList]
  | v :: vs, ws => by cases ws <;> simp [sameList, same_iff v, sameList_iff vs]

theorem sameEntries_iff : ∀ es fs : List (String × Value), sameEntries es fs ↔ es = fs
  | [], fs => by cases fs <;> simp [sameEntries]
  | (_, v) :: es, fs => by
    rcases fs with _ | ⟨⟨_, w⟩, fs⟩ <;> simp [sameEntries, same_iff v, sameEntries_iff es, and_assoc]

end

instance : DecidableEq Value := fun v w => decidable_of_iff _ (same_iff v w)

end Value

end PegParsing
