import PegParsing.Proofs.Grammar.Locality
import PegParsing.Proofs.Json.Parts

/-!
# What the parser of JSON documents reads is JSON

If values are read by one supply of nested calls, so are strings, lists, members and dictionaries, and
with them the values on the next supply (`reads_value`). A document is a value between two runs of white
space (`reads_document`).
-/

namespace PegParsing

open PegParsing.Parser

theorem Parser.Reads.ofSkip {p : Parser Unit} {S : List Char → Prop} (h : p.Reads fun w _ => S w) :
    (Terminal.ofSkip p).Reads fun w _ => S w := by
  refine (h.map _).mono ?_
  rintro w v ⟨u, hw, -⟩
  exact hw

namespace Catalog.Json

variable {σ : Type} {R : String → Parser Value}

/-! ## Strings and numbers -/

theorem reads_nothing : (Terminal.ofSkip .empty).skip.Reads fun w _ => w = [] := by
  refine ((reads_succeed ()).map _).skip.mono ?_
  rintro w - ⟨_, _, ⟨rfl, -⟩, -⟩
  rfl

theorem reads_string (R : String → Parser Value) :
    (string.denote R).Reads fun w v => ∃ s, Quoted s w ∧ v = .str s := by
  have hitem : characters.item.Reads fun w v =>
      ∃ c, w = [c] ∧ (!"\"".toList.contains c) = true ∧ v = .char c := by
    refine ((reads_charIf _).map _).mono ?_
    rintro w v ⟨c, ⟨rfl, hc⟩, rfl⟩
    exact ⟨c, rfl, hc, rfl⟩
  have hbody : (Collection.text.collect characters).Reads _ :=
    (Repetition.reads_characters agrees_characters reads_nothing hitem).map Value.str
  have hquote := (reads_literal ['"']).ofSkip
  rw [denote_string]
  refine (hquote.bind fun _ => hbody.bind fun v => hquote.map fun _ => v).mono ?_
  rintro w v ⟨_, -, _, rfl, ⟨cs, _, _, ⟨t, ⟨hcs, rfl⟩, rfl⟩, ⟨_, rfl, rfl⟩, rfl⟩, rfl⟩
  refine ⟨String.ofList cs, ⟨fun hmem => ?_, ?_⟩, ?_⟩
  · rw [String.toList_ofList] at hmem
    exact not_quote_iff.1 (hcs _ hmem) rfl
  · rw [String.toList_ofList]
    rfl
  · exact congrArg Value.str ((Collection.foldl_pushChar_map cs "").trans String.empty_append)

theorem reads_number (R : String → Parser Value) : (number.denote R).Reads Written := by
  have hsymbols : (enabled false RealFormat.symbolTable.parser).Reads fun w x =>
      ∃ d, Decimal.IsNumeral w d ∧ BinaryFormat.double.InRange d ∧
        x = BinaryFormat.double.ofDecimal d := by
    intro here stop c v h
    cases (enabled_eq_success.1 h).1
  have hnumber := reads_choice (List.forall_mem_cons.2
    ⟨RealFormat.reads_number { RealFormat.ofFormat .double with symbols := false },
      List.forall_mem_singleton.2 hsymbols⟩)
  refine (hnumber.map (Value.real .double)).mono ?_
  rintro w v ⟨x, ⟨d, hw, hd, rfl⟩, rfl⟩
  exact .number hw hd

theorem reads_keyword (R : String → Parser Value) : (keyword.denote R).Reads Written := by
  have hword : ∀ {text : String} {v : Value}, Written text.toList v →
      ((Grammar.yielding (Grammar.literal text) v).denote R).Reads Written := by
    intro text v hv
    refine ((reads_literal text.toList).ofSkip.map fun _ => v).mono ?_
    rintro w u ⟨_, rfl, rfl⟩
    exact hv
  refine reads_choice (List.forall_mem_cons.2 ⟨hword .true, List.forall_mem_cons.2 ⟨hword .false,
    List.forall_mem_singleton.2 (hword .null)⟩⟩)

/-! ## Lists and dictionaries -/

theorem reads_bracketed {o c : Char} (ho : Predicate.isBlank o = false)
    (hc : Predicate.isBlank c = false) {body : Parser Value} {Q : List Char → Value → Prop}
    (h : body.Reads Q) :
    ((Terminal.ofSkip (spacedChar o)).bind fun _ => body.bind fun v =>
      (Terminal.ofSkip (spacedChar c)).map fun _ => v).Reads fun w v =>
        ∃ l u r, Padded o l ∧ Padded c r ∧ Q u v ∧ w = l ++ (u ++ r) := by
  refine ((reads_spacedChar ho).ofSkip.bind fun _ => h.bind fun v =>
    (reads_spacedChar hc).ofSkip.map fun _ => v).mono ?_
  rintro w v ⟨l, -, _, hl, ⟨u, _, r, hu, ⟨_, hr, rfl⟩, rfl⟩, rfl⟩
  exact ⟨l, u, r, hl, hr, hu, rfl⟩

theorem reads_row {item : Parser Value} {Q : List Char → Value → Prop} (hagrees : item.Agrees item)
    (h : item.Reads Q) {into : Container Value σ} :
    ((row item).collect into).Reads fun w acc => ∃ es : List (List Char × Value),
      Separated (Padded ',') (es.map Prod.fst) w ∧ (∀ e ∈ es, Q e.1 e.2) ∧
        acc = into.extend into.empty (es.map Prod.snd) := by
  refine Repetition.reads_collect (agrees_row hagrees) ?_ h
  refine (reads_spacedChar rfl).ofSkip.skip.mono ?_
  rintro w - ⟨_, hw⟩
  exact hw

theorem reads_list (hagrees : (R "value").Agrees (R "value")) (h : (R "value").Reads Written) :
    (list.denote R).Reads Written := by
  have hrow : ((row (R "value")).list.map Value.list).Reads _ :=
    ((reads_row hagrees h).map Array.toList).map Value.list
  rw [denote_list]
  refine (reads_bracketed rfl rfl hrow).mono ?_
  rintro w v ⟨l, u, r, hl, hr, ⟨_, ⟨_, ⟨es, hsep, hes, rfl⟩, rfl⟩, rfl⟩, rfl⟩
  rw [Container.toList_extend_list]
  exact .list hl hr hsep hes

theorem reads_member (h : (R "value").Reads Written) :
    (member.denote R).Reads fun w v => ∃ m : Member, m.Labelled ∧ Written m.body m.value ∧
      w = m.text ∧ v = .tuple [.str m.key, m.value] := by
  rw [denote_member]
  refine ((reads_string R).bind fun k => (reads_spacedChar rfl).ofSkip.bind fun _ =>
    h.map fun v => Value.tuple [k, v]).mono ?_
  rintro w v ⟨q, _, _, ⟨s, hq, rfl⟩, ⟨c, _, b, hc, ⟨u, hb, rfl⟩, rfl⟩, rfl⟩
  exact ⟨⟨s, u, q, c, b⟩, ⟨hq, hc⟩, hb, rfl, rfl⟩

/-- The members that the items of a row are. -/
theorem exists_members {es : List (List Char × Value)}
    (h : ∀ e ∈ es, ∃ m : Member, m.Labelled ∧ Written m.body m.value ∧ e.1 = m.text ∧
      e.2 = .tuple [.str m.key, m.value]) :
    ∃ ms : List Member, (∀ m ∈ ms, m.Labelled) ∧ (∀ m ∈ ms, Written m.body m.value) ∧
      es.map Prod.fst = ms.map Member.text ∧
        es.map Prod.snd = (ms.map Member.entry).map fun e => .tuple [.str e.1, e.2] := by
  induction es with
  | nil => exact ⟨[], List.forall_mem_nil _, List.forall_mem_nil _, rfl, rfl⟩
  | cons e es ih =>
    obtain ⟨⟨m, hlabel, hbody, htext, hvalue⟩, hes⟩ := List.forall_mem_cons.1 h
    obtain ⟨ms, hlabels, hbodies, htexts, hvalues⟩ := ih hes
    refine ⟨m :: ms, List.forall_mem_cons.2 ⟨hlabel, hlabels⟩, List.forall_mem_cons.2 ⟨hbody, hbodies⟩,
      ?_, ?_⟩
    · rw [List.map_cons, List.map_cons, htext, htexts]
    · rw [List.map_cons, hvalue, hvalues]
      rfl

theorem reads_dict (hagrees : ∀ name, (R name).Agrees (R name)) (h : (R "value").Reads Written) :
    (dict.denote R).Reads Written := by
  have hrow : (Collection.dict.collect (row (member.denote R))).Reads _ :=
    (reads_row (member.agrees hagrees) (reads_member h)).map Value.dict
  rw [denote_dict]
  refine (reads_bracketed rfl rfl hrow).mono ?_
  rintro w v ⟨l, u, r, hl, hr, ⟨_, ⟨es, hsep, hes, rfl⟩, rfl⟩, rfl⟩
  obtain ⟨ms, hlabels, hbodies, htexts, hvalues⟩ := exists_members hes
  rw [htexts] at hsep
  have hdict : Container.extend ⟨[], Collection.pushEntry⟩ [] (es.map Prod.snd) =
      Dict.ofList (ms.map Member.entry) := by
    rw [hvalues]
    exact Collection.foldl_pushEntry_map _
  rw [hdict]
  exact .dict hl hr hsep hlabels hbodies (Dict.increasing_ofList _) (Dict.get?_ofList _)

/-! ## Values and documents -/

theorem reads_value (n : Nat) : (rules.parser n "value").Reads Written := by
  induction n with
  | zero =>
    intro here stop c v h
    cases h
  | succ n ih =>
    have hagrees := fun name => rules.agrees n n name
    have hstring : (string.denote (rules.parser n)).Reads Written := by
      refine (reads_string _).mono ?_
      rintro w v ⟨s, hs, rfl⟩
      exact .string hs
    rw [parser_succ]
    refine reads_choice ?_
    simp only [List.forall_mem_cons]
    exact ⟨hstring, reads_number _, reads_list (hagrees _) ih, reads_dict hagrees ih,
      reads_keyword _, List.forall_mem_nil _⟩

theorem reads_allSpace (R : String → Parser Value) :
    (Grammar.allSpace.denote R).Reads fun w _ => Spaces w := by
  rw [denote_allSpace]
  have hitem : spaces.item.Reads fun w v =>
      ∃ c, w = [c] ∧ Predicate.isSpace c = true ∧ v = .nothing := by
    refine (((reads_charIf _).map _).skip.map _).mono ?_
    rintro w v ⟨_, ⟨_, c, hc, -⟩, rfl⟩
    exact ⟨c, hc.1, hc.2, rfl⟩
  have hrun : spaces.skip.Reads fun w _ => Spaces w :=
    (Repetition.reads_characters agrees_spaces reads_nothing hitem).mono fun w _ h => h.1
  exact hrun.ofSkip

theorem reads_document (n : Nat) :
    (document.start.denote (rules.parser n)).Reads Document := by
  rw [denote_document]
  refine ((reads_allSpace _).bind fun _ => (reads_value n).bind fun v =>
    (reads_allSpace _).map fun _ => v).mono ?_
  rintro w v ⟨a, -, _, ha, ⟨w, _, b, hw, ⟨_, hb, rfl⟩, rfl⟩, rfl⟩
  exact ⟨a, w, b, ha, hb, hw, rfl⟩

end Catalog.Json

end PegParsing
