import PegParsing.Bounds
import PegParsing.Parser.Basic

/-!
# Repetition

A repetition runs its item again and again, with a separator before each item but the first. It
stops at its upper bound and at the first item or separator that fails, and stands then behind the
last item that it accepted. An item that leaves the cursor where the round began is accepted but
ends the repetition, as soon as the lower bound is reached. Fewer items than the lower bound are a
failure.

Each accepted item is handed to an accumulator at once, so that the items accepted before a failure
are not lost: `extend` adds them to a container that the caller keeps.

A round either reads something or adds to the items still missing, so `rounds` bounds their number
for every item and separator that never moves back or beyond the window.
-/

namespace PegParsing

/-- A place to put values: where to begin, and how to add one. -/
structure Container (α σ : Type) where
  empty : σ
  push : σ → α → σ

namespace Container

variable {α σ : Type}

/-- Adds values in order. -/
def extend (into : Container α σ) (s : σ) (vs : List α) : σ := vs.foldl into.push s

def list : Container α (Array α) := ⟨#[], Array.push⟩

def text : Container Char String := ⟨"", String.push⟩

/-- Keeps nothing. -/
def nothing : Container α Unit := ⟨(), fun _ _ => ()⟩

end Container

structure Repetition (α : Type) where
  bounds : Bounds
  separator : Parser Unit
  item : Parser α

namespace Repetition

variable {α σ : Type}

/-- More rounds than a repetition between `here` and `stop` can make. -/
def rounds (r : Repetition α) (here stop : Cursor) : Nat :=
  here.remaining stop + max r.bounds.min 1 + 1

/-- How a repetition ends behind `count` items. -/
def close (r : Repetition α) (count : Nat) (here : Cursor) : Parsed Unit :=
  if count < r.bounds.min then .failure here .tooFew else .success here ()

/-- The separator of a round: none before the first item. -/
def separatorAt (r : Repetition α) (count : Nat) : Parser Unit :=
  if count = 0 then Parser.empty else r.separator

/-- At most `fuel` rounds, `count` items having been accepted and put into `acc`. -/
def drive (r : Repetition α) (push : σ → α → σ) (stop : Cursor) :
    Nat → Nat → Cursor → σ → Option (σ × Parsed Unit)
  | 0, _, _, _ => none
  | fuel + 1, count, here, acc =>
    if r.bounds.full count then some (acc, r.close count here)
    else (r.separatorAt count here stop).bind fun
      | ⟨_, .error _⟩ => some (acc, r.close count here)
      | ⟨next, .ok _⟩ => (r.item next stop).bind fun
        | ⟨_, .error _⟩ => some (acc, r.close count here)
        | ⟨last, .ok v⟩ =>
          if last.offset = here.offset ∧ r.bounds.min ≤ count + 1 then
            some (push acc v, r.close (count + 1) last)
          else drive r push stop fuel (count + 1) last (push acc v)

/-- Adds the accepted items to a container, on failure too. -/
def extend (r : Repetition α) (into : Container α σ) (here stop : Cursor) (acc : σ) :
    Option (σ × Parsed Unit) :=
  r.drive into.push stop (r.rounds here stop) 0 here acc

/-- The accepted items in a container of their own. -/
def collect (r : Repetition α) (into : Container α σ) : Parser σ := fun here stop =>
  (r.extend into here stop into.empty).map fun (acc, p) => p.map fun _ => acc

/-- The list of the accepted items. -/
def list (r : Repetition α) : Parser (List α) := (r.collect .list).map Array.toList

/-- The repetition as a skip. -/
def skip (r : Repetition α) : Parser Unit := r.collect .nothing

end Repetition

namespace Parser

variable {α : Type}

/-- A repetition without separators. -/
def times (bounds : Bounds) (item : Parser α) : Repetition α := ⟨bounds, empty, item⟩

end Parser

end PegParsing
