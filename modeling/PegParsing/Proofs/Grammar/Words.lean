import Mathlib.Data.List.Chain
import PegParsing.Grammar.Derived
import PegParsing.Proofs.Grammar.Gathering
import PegParsing.Proofs.Parser.Munching

/-!
# Words, and texts as rows of words

A word is a run of characters that is read to its end, or up to its upper bound, and yielded as a text
(`Grammar.accepts_letters`).

Every text is made up of the longest runs of characters of one sort: of those in a set, and of the
others. There is one way to cut it so, and the repetition of words of both sorts finds it
(`Grammar.pieces_split`).
-/

namespace PegParsing

open Cursor PegParsing.Parser

variable {accepts : Char → Bool} {q : Bool} {w s cs : List Char} {ws : List (List Char)}

/-! ## The runs of a text -/

/-- The text is made up of these runs of characters of one sort, each as long as it can be. -/
structure Pieces (accepts : Char → Bool) (cs : List Char) (ws : List (List Char)) : Prop where
  flatten : ws.flatten = cs
  sorts : ∀ w ∈ ws, w ≠ [] ∧ ∃ q, ∀ c ∈ w, accepts c = q
  neighbours : ws.IsChain fun v w => ∀ c ∈ v, ∀ d ∈ w, accepts c ≠ accepts d

namespace Pieces

theorem nil (accepts : Char → Bool) : Pieces accepts [] [] := ⟨rfl, nofun, .nil⟩

/-- A run of one sort, and the pieces of what follows if it does not go on there. -/
theorem cons (hne : w ≠ []) (hw : ∀ c ∈ w, accepts c = q) (hs : Stops (accepts · == q) s)
    (h : Pieces accepts s ws) : Pieces accepts (w ++ s) (w :: ws) := by
  refine ⟨?_, List.forall_mem_cons.2 ⟨⟨hne, q, hw⟩, h.sorts⟩, ?_⟩
  · rw [List.flatten_cons, h.flatten]
  cases ws with
  | nil => exact .singleton w
  | cons v ws =>
    refine List.isChain_cons_cons.2 ⟨fun c hc d hd => ?_, h.neighbours⟩
    obtain ⟨hv, o, ho⟩ := h.sorts v List.mem_cons_self
    obtain ⟨e, t, rfl⟩ := List.exists_cons_of_ne_nil hv
    have he := hs e (t ++ ws.flatten) h.flatten.symm
    rw [hw c hc, ho d hd, ← ho e List.mem_cons_self]
    exact (beq_eq_false_iff_ne.1 he).symm

theorem exists_of_cons (h : Pieces accepts cs (w :: ws)) : w ≠ [] ∧ cs = w ++ ws.flatten ∧
    (∃ q, (∀ c ∈ w, accepts c = q) ∧ Stops (accepts · == q) ws.flatten) ∧
    Pieces accepts ws.flatten ws := by
  obtain ⟨⟨hne, q, hw⟩, hsorts⟩ := List.forall_mem_cons.1 h.sorts
  refine ⟨hne, h.flatten.symm, ⟨q, hw, ?_⟩, ⟨rfl, hsorts, h.neighbours.tail⟩⟩
  intro d t hd
  cases ws with
  | nil => cases hd
  | cons v ws =>
    obtain ⟨e, v, rfl⟩ := List.exists_cons_of_ne_nil (hsorts _ List.mem_cons_self).1
    obtain ⟨c, hc⟩ := List.exists_mem_of_ne_nil w hne
    have hce := (List.isChain_cons_cons.1 h.neighbours).1 c hc e List.mem_cons_self
    rw [hw c hc, (List.cons.inj hd).1] at hce
    exact beq_eq_false_iff_ne.2 hce.symm

end Pieces

/-- Every text has pieces. The first goes on as long as the sort of its first character does. -/
theorem exists_pieces (accepts : Char → Bool) (cs : List Char) : ∃ ws, Pieces accepts cs ws := by
  induction hlen : cs.length using Nat.strongRecOn generalizing cs with
  | ind n ih =>
    cases cs with
    | nil => exact ⟨[], .nil accepts⟩
    | cons c cs =>
      obtain ⟨w, s, hcs, hw, -, hend⟩ := exists_cut none (accepts · == accepts c) (c :: cs)
      have hs : Stops (accepts · == accepts c) s := hend.resolve_left nofun
      have hne : w ≠ [] := by
        rintro rfl
        exact beq_eq_false_iff_ne.1 (hs c cs hcs.symm) rfl
      have hlt : s.length < n := by
        have hpos := List.length_pos_iff.2 hne
        rw [← hlen, hcs, List.length_append]
        omega
      obtain ⟨ws, hws⟩ := ih s.length hlt s rfl
      rw [hcs]
      exact ⟨w :: ws, .cons hne (fun d hd => eq_of_beq (hw d hd)) hs hws⟩

namespace Grammar

variable {R : String → Parser Value} {b : Bounds}

/-! ## Words -/

/-- The characters of a word, one by one. -/
def letters (b : Bounds) (accepts : Char → Bool) : Repetition Value :=
  ⟨b, (Terminal.ofSkip .empty).skip, (Parser.charIf accepts).map .char⟩

theorem agrees_letters : (letters b accepts).Agrees (letters b accepts) :=
  ⟨rfl, (agrees_empty.map _).skip, (agrees_charIf _).map _⟩

theorem rounds_letters (hw : ∀ c ∈ w, accepts c = true) (hmax : ∀ n ∈ b.max, w.length ≤ n)
    (hs : b.max = some w.length ∨ Stops accepts s) :
    (letters b accepts).Rounds 0 (w ++ s) (w.map .char) s :=
  Repetition.rounds_run (fun cs => ((accepts_succeed () cs).map _).skip)
    (fun c s hc => (accepts_charIf hc s).map Value.char) (fun _ hs => (rejects_charIf hs).map _) hw
    (by rwa [Nat.zero_add]) (by rwa [Nat.zero_add])

theorem accepts_letters (h : Cut b accepts w s) :
    (Collection.text.collect (letters b accepts)).Accepts (w ++ s) (.str (String.ofList w)) s := by
  obtain ⟨hw, ⟨hmin, hmax⟩, hs⟩ := h
  rw [← List.length_map] at hmin
  have hrun := ((rounds_letters hw hmax hs).accepts agrees_letters hmin
    ⟨"", Collection.pushChar⟩).map Value.str
  have htext : Container.extend ⟨"", Collection.pushChar⟩ "" (w.map Value.char) = String.ofList w :=
    (Collection.foldl_pushChar_map w "").trans String.empty_append
  rwa [htext] at hrun

theorem rejects_letters (hno : ∀ w s, cs = w ++ s → ¬ Cut b accepts w s) :
    (Collection.text.collect (letters b accepts)).Rejects cs := by
  obtain ⟨w, s, rfl, hw, hmax, hs⟩ := exists_cut b.max accepts cs
  have hmin : (w.map Value.char).length < b.min := by
    rw [List.length_map]
    exact Nat.lt_of_not_le fun hmin => hno w s rfl ⟨hw, ⟨hmin, hmax⟩, hs⟩
  exact ((rounds_letters hw hmax hs).rejects agrees_letters hmin ⟨"", Collection.pushChar⟩).map _

/-- There is no word of at least one character where no such character follows. -/
theorem rejects_letters_of_stops (h : Stops accepts cs) :
    (Collection.text.collect (letters (.atLeast 1) accepts)).Rejects cs := by
  refine rejects_letters ?_
  rintro w s rfl ⟨hw, ⟨hmin, -⟩, -⟩
  obtain ⟨c, t, rfl⟩ := List.exists_cons_of_length_pos hmin
  exact Bool.false_ne_true ((h c (t ++ s) rfl).symm.trans (hw c List.mem_cons_self))

/-! ## Rows of words -/

/-- A word of characters of the set, or of others. -/
def piece (set : String) : Grammar :=
  .choice [stringOf set (.atLeast 1), stringNoneOf set (.atLeast 1)]

/-- The words of characters of the set and of others, one behind the other. -/
def pieces (set : String) : Grammar := times .any (piece set)

variable {set : String}

/-- The repetition that the words are the items of. -/
def pieceRow (R : String → Parser Value) (set : String) : Repetition Value :=
  ⟨.any, (Terminal.ofSkip .empty).skip, (piece set).denote R⟩

theorem denote_piece : (piece set).denote R =
    Parser.choice [Collection.text.collect (letters (.atLeast 1) (set.toList.contains ·)),
      Collection.text.collect (letters (.atLeast 1) fun c => !set.toList.contains c)] := rfl

theorem denote_pieces : (pieces set).denote R = (pieceRow R set).list.map .list := rfl

theorem agrees_pieceRow : (pieceRow R set).Agrees (pieceRow R set) := by
  refine ⟨rfl, (agrees_empty.map _).skip, ?_⟩
  show ((piece set).denote R).Agrees ((piece set).denote R)
  rw [denote_piece]
  refine agrees_choice_self fun p hp => ?_
  simp only [List.mem_cons, List.not_mem_nil, or_false] at hp
  rcases hp with rfl | rfl
  · exact (agrees_letters.collect _).map _
  · exact (agrees_letters.collect _).map _

/-- A run of one sort is a word of that sort, and of the other it is none. -/
theorem accepts_piece (hne : w ≠ []) (hw : ∀ c ∈ w, set.toList.contains c = q)
    (hs : Stops (set.toList.contains · == q) s) :
    ((piece set).denote R).Accepts (w ++ s) (.str (String.ofList w)) s := by
  have hpos : (Bounds.atLeast 1).Allows w.length := ⟨List.length_pos_iff.2 hne, nofun⟩
  rw [denote_piece]
  cases q with
  | true =>
    simp only [beq_true] at hs
    exact (accepts_letters ⟨hw, hpos, .inr hs⟩).choice _
  | false =>
    simp only [beq_false] at hs
    obtain ⟨c, t, rfl⟩ := List.exists_cons_of_ne_nil hne
    have hfirst : Stops (set.toList.contains ·) (c :: t ++ s) := by
      intro d u hd
      rw [← (List.cons.inj hd).1]
      exact hw c List.mem_cons_self
    have hothers : ∀ d ∈ c :: t, (!set.toList.contains d) = true :=
      fun d hd => congrArg not (hw d hd)
    exact (rejects_letters_of_stops hfirst).choice (accepts_letters ⟨hothers, hpos, .inr hs⟩)

theorem rejects_piece_nil : ((piece set).denote R).Rejects [] := by
  rw [denote_piece]
  exact rejects_choice (List.forall_mem_cons.2 ⟨rejects_letters_of_stops nofun,
    List.forall_mem_singleton.2 (rejects_letters_of_stops nofun)⟩)

/-- Each piece of a text is read in a round of its own. -/
theorem rounds_pieces (h : Pieces (set.toList.contains ·) cs ws) (count : Nat) :
    (pieceRow R set).Rounds count cs (ws.map fun w => .str (String.ofList w)) [] := by
  have hsep := @Repetition.accepts_separatorAt _ (pieceRow R set)
    fun cs => ((accepts_succeed () cs).map _).skip
  induction ws generalizing cs count with
  | nil =>
    obtain rfl : [] = cs := h.flatten
    exact .failed (Bounds.full_any count) ((hsep count []).bind_rejects rejects_piece_nil)
  | cons w ws ih =>
    obtain ⟨hne, rfl, ⟨q, hw, hs⟩, hrest⟩ := h.exists_of_cons
    refine .next (Bounds.full_any count)
      ((hsep count _).bind (accepts_piece hne hw hs)) ?_ (ih hrest (count + 1))
    rw [List.length_append]
    exact Nat.lt_add_of_pos_left (List.length_pos_iff.2 hne)

theorem denote_pieces_of_pieces (h : Pieces (set.toList.contains ·) cs ws) {here stop : Cursor}
    (hrest : here.rest stop = cs) : (pieces set).denote R here stop =
      some (.success (here.advance (Text.byteLength cs))
        (.list (ws.map fun w => .str (String.ofList w)))) := by
  have hrounds := @rounds_pieces cs ws R set h 0
  have hrow := (hrounds.accepts agrees_pieceRow (Nat.zero_le _) .list).map Array.toList
  rw [Container.toList_extend_list] at hrow
  have haccepts := hrow.map Value.list
  rw [← List.append_nil cs] at haccepts hrest
  rw [denote_pieces]
  exact haccepts.eq_success (agrees_pieceRow.list.map _) hrest

/-- Read as words of characters of a set and of others, a text is read to its end and falls into its
longest runs of characters of one sort. There are no other such runs. -/
theorem pieces_split (set : String) (R : String → Parser Value) (text : List Char) :
    ∃ ws, Pieces (set.toList.contains ·) text ws ∧
      (∀ vs, Pieces (set.toList.contains ·) text vs → vs = ws) ∧
      (∀ here stop : Cursor, here.rest stop = text → (pieces set).denote R here stop =
        some (.success (here.advance (Text.byteLength text))
          (.list (ws.map fun w => .str (String.ofList w))))) ∧
      (pieces set).denote R (start text) (finish text) =
        some (.success (finish text) (.list (ws.map fun w => .str (String.ofList w)))) := by
  obtain ⟨ws, hws⟩ := exists_pieces (set.toList.contains ·) text
  have hend : (start text).advance (Text.byteLength text) = finish text :=
    congrArg (Cursor.mk text) (Nat.zero_add _)
  have hwhole : ∀ vs, Pieces (set.toList.contains ·) text vs →
      (pieces set).denote R (start text) (finish text) =
        some (.success (finish text) (.list (vs.map fun w => .str (String.ofList w)))) := by
    intro vs hvs
    rw [denote_pieces_of_pieces hvs (rest_start text), hend]
  refine ⟨ws, hws, fun vs hvs => ?_, fun here stop => denote_pieces_of_pieces hws, hwhole ws hws⟩
  -- the texts that are yielded tell the runs
  have hvalues := (hwhole vs hvs).symm.trans (hwhole ws hws)
  have hinjective : Function.Injective fun w => Value.str (String.ofList w) := fun v w h =>
    String.ofList_injective (Value.str.inj h)
  obtain ⟨-, houtcome⟩ := Parsed.mk.inj (Option.some.inj hvalues)
  exact hinjective.list_map (Value.list.inj (Except.ok.inj houtcome))

end Grammar

end PegParsing
