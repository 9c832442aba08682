import PegParsing.Proofs.Grammar.Words
import PegParsing.Proofs.Json.Rows
import PegParsing.Proofs.Number.Literal

/-!
# JSON is read by the parser of JSON documents

Which alternative reads a value is seen from its first character: those before it fail there. By
induction on how a value is written, the parser of values takes its text (`takes_value`) as soon as more
nested calls are allowed than the text has characters.
-/

namespace PegParsing

open PegParsing.Parser Decimal

namespace Catalog.Json

variable {R : String → Parser Value} {w : List Char} {v : Value}

/-! ## Strings -/

theorem accepts_characters {s : String} (hs : '"' ∉ s.toList) (tail : List Char) :
    (Collection.text.collect characters).Accepts (s.toList ++ '"' :: tail) (.str s) ('"' :: tail) := by
  have haccepts : ∀ c ∈ s.toList, (!"\"".toList.contains c) = true :=
    fun c hc => not_quote_iff.2 fun h => hs (h ▸ hc)
  have hquote : (!"\"".toList.contains '"') = false := by decide
  have hword := Grammar.accepts_letters (b := .any)
    ⟨haccepts, ⟨Nat.zero_le _, nofun⟩, .inr (stops_cons hquote tail)⟩
  rwa [String.ofList_toList] at hword

theorem accepts_quote (tail : List Char) :
    (Terminal.ofSkip (literal .exact ['"'])).Accepts ('"' :: tail) .nothing tail :=
  (accepts_literal ['"'] tail).map _

theorem accepts_string {s : String} (hw : Quoted s w) (tail : List Char) :
    (string.denote R).Accepts (w ++ tail) (.str s) tail := by
  obtain ⟨hs, rfl⟩ := hw
  rw [denote_string, List.cons_append, List.append_assoc]
  exact (accepts_quote _).bind ((accepts_characters hs tail).bind ((accepts_quote tail).map _))

theorem Quoted.exists_cons {s : String} (hw : Quoted s w) : ∃ t, w = '"' :: t := by
  obtain ⟨-, rfl⟩ := hw
  exact ⟨_, rfl⟩

theorem takes_string {s : String} (hw : Quoted s w) : (string.denote R).Takes w (.str s) := by
  obtain ⟨t, rfl⟩ := hw.exists_cons
  exact takes_of_accepts rfl fun tail _ => accepts_string hw tail

theorem rejects_string {c : Char} (hc : c ≠ '"') (t : List Char) :
    (string.denote R).Rejects (c :: t) := by
  rw [denote_string]
  exact ((rejects_literal fun s hs => hc (List.cons.inj hs).1).map _).bind

/-! ## Numbers -/

theorem isSpace_of_startsNumeral {c : Char} (hc : startsNumeral c = true) :
    Predicate.isSpace c = false := by
  by_contra h
  rcases eq_of_isSpace (Bool.eq_true_of_not_eq_false h) with rfl | rfl | rfl | rfl | rfl | rfl <;>
    cases hc

theorem takes_number {d : Decimal} (hw : IsNumeral w d) (hd : BinaryFormat.double.InRange d) :
    (number.denote R).Takes w (.real .double (BinaryFormat.double.ofDecimal d)) := by
  have hliberal : { RealFormat.ofFormat .double with symbols := false }.Liberal :=
    ⟨rfl, rfl, rfl, rfl, rfl⟩
  obtain ⟨c, t, rfl, hc⟩ := hw.exists_head
  refine takes_of_accepts (isSpace_of_startsNumeral hc) fun tail htail => ?_
  have haccepts := (RealFormat.accepts_number hliberal hw hd htail).choice
    [enabled false RealFormat.symbolTable.parser]
  exact haccepts.map (Value.real .double)

theorem rejects_number {c : Char} (hc : startsNumeral c = false) (t : List Char) :
    (number.denote R).Rejects (c :: t) := by
  have hno : ∀ w d, w <+: c :: t → ¬ IsNumeral w d := by
    rintro w d ⟨s, hs⟩ hw
    obtain ⟨e, u, rfl, he⟩ := hw.exists_head
    obtain ⟨rfl, -⟩ := List.cons.inj hs
    rw [hc] at he
    cases he
  refine (rejects_choice ?_).map _
  exact List.forall_mem_cons.2 ⟨RealFormat.rejects_number hno,
    List.forall_mem_singleton.2 (rejects_failAt _ _)⟩

/-! ## Keywords -/

theorem accepts_word (text : String) (v : Value) (tail : List Char) :
    ((Grammar.yielding (Grammar.literal text) v).denote R).Accepts (text.toList ++ tail) v tail :=
  ((accepts_literal text.toList tail).map _).map _

theorem rejects_word {text : String} {d : Char} {u : List Char} (htext : text.toList = d :: u)
    (v : Value) {c : Char} (hc : c ≠ d) (t : List Char) :
    ((Grammar.yielding (Grammar.literal text) v).denote R).Rejects (c :: t) := by
  have hreject : (literal .exact text.toList).Rejects (c :: t) := by
    refine rejects_literal fun s hs => ?_
    rw [htext] at hs
    exact hc (List.cons.inj hs).1
  exact (hreject.map _).map _

theorem accepts_true (tail : List Char) :
    (keyword.denote R).Accepts ("true".toList ++ tail) (.bool true) tail :=
  (accepts_word "true" _ tail).choice _

theorem accepts_false (tail : List Char) :
    (keyword.denote R).Accepts ("false".toList ++ tail) (.bool false) tail :=
  (rejects_word rfl _ (by decide) _).choice ((accepts_word "false" _ tail).choice _)

theorem accepts_null (tail : List Char) :
    (keyword.denote R).Accepts ("null".toList ++ tail) .nothing tail :=
  (rejects_word rfl _ (by decide) _).choice ((rejects_word rfl _ (by decide) _).choice
    ((accepts_word "null" _ tail).choice _))

theorem rejects_keyword {c : Char} (ht : c ≠ 't') (hf : c ≠ 'f') (hn : c ≠ 'n') (t : List Char) :
    (keyword.denote R).Rejects (c :: t) := by
  refine rejects_choice (List.forall_mem_cons.2 ⟨?_, List.forall_mem_cons.2 ⟨?_,
    List.forall_mem_singleton.2 ?_⟩⟩)
  · exact rejects_word rfl _ ht t
  · exact rejects_word rfl _ hf t
  · exact rejects_word rfl _ hn t

/-! ## Lists and dictionaries -/

theorem takes_list {l r : List Char} {es : List (List Char × Value)}
    (hagrees : (R "value").Agrees (R "value")) (hl : Padded '[' l) (hr : Padded ']' r)
    (hw : Separated (Padded ',') (es.map Prod.fst) w) (h : ∀ e ∈ es, (R "value").Takes e.1 e.2)
    (hend : ∀ t, (R "value").Rejects (']' :: t)) :
    (list.denote R).Takes (l ++ (w ++ r)) (.list (es.map Prod.snd)) := by
  rw [denote_list]
  refine takes_bracketed rfl rfl (stops_cons rfl []) (by decide) hl hr h hw hend fun cs s hrounds => ?_
  have hlist := (hrounds.accepts (agrees_row hagrees) (Nat.zero_le _) .list).map Array.toList
  rw [Container.toList_extend_list] at hlist
  exact hlist.map _

theorem rejects_list {c : Char} (hs : Predicate.isSpace c = false) (hc : c ≠ '[') (t : List Char) :
    (list.denote R).Rejects (c :: t) := by
  rw [denote_list]
  exact rejects_bracketed rfl hs hc t _

theorem Member.length_body_le (m : Member) : m.body.length ≤ m.text.length := by
  unfold Member.text
  rw [List.length_append, List.length_append]
  omega

theorem takes_member {m : Member} (hm : m.Labelled) (h : (R "value").Takes m.body m.value) :
    (member.denote R).Takes m.text (.tuple [.str m.key, m.value]) := by
  obtain ⟨hkey, hcolon⟩ := hm
  obtain ⟨t, ht⟩ : ∃ t, m.text = '"' :: t := by
    obtain ⟨t, ht⟩ := hkey.exists_cons
    unfold Member.text
    rw [ht]
    exact ⟨_, rfl⟩
  have htrim : trim m.text = m.text := by
    rw [ht]
    exact trim_cons rfl t
  rw [denote_member]
  refine ⟨?_, fun tail htail => ?_⟩
  · rw [htrim, ht]
    exact List.cons_ne_nil _ t
  obtain ⟨a, s, ha, hsplit, hvalue⟩ := h.accepts htail
  refine ⟨a, s, ha, hsplit, ?_⟩
  have hmiddle : (spacedChar ':').Accepts (m.colon ++ (m.body ++ tail)) () (trim m.body ++ tail) := by
    rw [← trim_append h.ne_nil]
    exact hcolon.accepts rfl rfl
  rw [htrim]
  unfold Member.text
  rw [List.append_assoc, List.append_assoc]
  exact (accepts_string hkey _).bind ((hmiddle.map _).bind (hvalue.map _))

theorem rejects_member {c : Char} (hc : c ≠ '"') (t : List Char) :
    (member.denote R).Rejects (c :: t) := by
  rw [denote_member]
  exact (rejects_string hc t).bind

theorem takes_dict {l r : List Char} {ms : List Member} {d : Dict Value}
    (hagrees : ∀ name, (R name).Agrees (R name)) (hl : Padded '\x7b' l) (hr : Padded '\x7d' r)
    (hw : Separated (Padded ',') (ms.map Member.text) w) (hm : ∀ m ∈ ms, m.Labelled)
    (h : ∀ m ∈ ms, (R "value").Takes m.body m.value) (hd : d.Increasing)
    (hget : ∀ k, d.get? k = Dict.lastValue? k (ms.map Member.entry)) :
    (dict.denote R).Takes (l ++ (w ++ r)) (.dict d) := by
  have hitems : ∀ e ∈ ms.map fun m => (m.text, Value.tuple [.str m.key, m.value]),
      (member.denote R).Takes e.1 e.2 := by
    intro e he
    obtain ⟨m, hmem, rfl⟩ := List.mem_map.1 he
    exact takes_member (hm m hmem) (h m hmem)
  obtain rfl : Dict.ofList (ms.map Member.entry) = d :=
    Dict.eq_of_get?_eq (Dict.increasing_ofList _) hd fun k => (Dict.get?_ofList _ k).trans (hget k).symm
  have htexts : ms.map Member.text =
      (ms.map fun m => (m.text, Value.tuple [.str m.key, m.value])).map Prod.fst := by
    rw [List.map_map]
    rfl
  rw [htexts] at hw
  rw [denote_dict]
  refine takes_bracketed rfl rfl (stops_cons rfl []) (by decide) hl hr hitems hw
    (fun t => rejects_member (by decide) t) fun cs s hrounds => ?_
  have hentries : Container.extend ⟨[], Collection.pushEntry⟩ []
      ((ms.map fun m => (m.text, Value.tuple [.str m.key, m.value])).map Prod.snd) =
        Dict.ofList (ms.map Member.entry) := by
    rw [← Collection.foldl_pushEntry_map, List.map_map, List.map_map]
    rfl
  have hdict := (hrounds.accepts (agrees_row (member.agrees hagrees)) (Nat.zero_le _)
    ⟨[], Collection.pushEntry⟩).map Value.dict
  rwa [hentries] at hdict

theorem rejects_dict {c : Char} (hs : Predicate.isSpace c = false) (hc : c ≠ '\x7b')
    (t : List Char) : (dict.denote R).Rejects (c :: t) := by
  rw [denote_dict]
  exact rejects_bracketed rfl hs hc t _

/-! ## Values -/

theorem rejects_value (n : Nat) (t : List Char) : (rules.parser (n + 1) "value").Rejects (']' :: t) := by
  rw [parser_succ]
  refine rejects_choice ?_
  simp only [List.forall_mem_cons]
  exact ⟨rejects_string (by decide) t, rejects_number rfl t, rejects_list rfl (by decide) t,
    rejects_dict rfl (by decide) t, rejects_keyword (by decide) (by decide) (by decide) t,
    List.forall_mem_nil _⟩

/-- The text of a keyword is left to the last alternative. -/
theorem takes_keyword {c : Char} {t : List Char} (hs : Predicate.isSpace c = false) (hq : c ≠ '"')
    (hn : startsNumeral c = false) (hl : c ≠ '[') (hd : c ≠ '\x7b')
    (h : ∀ tail, (keyword.denote R).Accepts (c :: t ++ tail) v tail) :
    (choice [string.denote R, number.denote R, list.denote R, dict.denote R,
      keyword.denote R]).Takes (c :: t) v := by
  have hkeyword : (keyword.denote R).Takes (c :: t) v := takes_of_accepts hs fun tail _ => h tail
  have htrim := trim_cons hs t
  exact Takes.choice_cons htrim (rejects_string hq) <| Takes.choice_cons htrim (rejects_number hn) <|
    Takes.choice_cons htrim (rejects_list hs hl) <| Takes.choice_cons htrim (rejects_dict hs hd) <|
    hkeyword.choice []

/-- The parser of values takes what is a way to write a value. -/
theorem takes_value (h : Written w v) {n : Nat} (hn : w.length ≤ n) :
    (rules.parser (n + 1) "value").Takes w v := by
  rw [parser_succ]
  induction h generalizing n with
  | string hw => exact (takes_string hw).choice _
  | number hw hd =>
    obtain ⟨c, t, rfl, hc⟩ := hw.exists_head
    have hquote : c ≠ '"' := by
      rintro rfl
      cases hc
    exact Takes.choice_cons (trim_cons (isSpace_of_startsNumeral hc) t) (rejects_string hquote)
      ((takes_number hw hd).choice _)
  | true => exact takes_keyword rfl (by decide) rfl (by decide) (by decide) accepts_true
  | false => exact takes_keyword rfl (by decide) rfl (by decide) (by decide) accepts_false
  | null => exact takes_keyword rfl (by decide) rfl (by decide) (by decide) accepts_null
  | @list l w r es hl hr hw _ ih =>
    have hlen := length_bracketed hl hr w
    obtain ⟨m, rfl⟩ : ∃ m, n = m + 1 := ⟨n - 1, by omega⟩
    have hitems : ∀ e ∈ es, (rules.parser (m + 1) "value").Takes e.1 e.2 := by
      intro e he
      have hle := hw.length_le (List.mem_map_of_mem he)
      exact ih e he (by omega)
    have hlist := takes_list (rules.agrees _ _ "value") hl hr hw hitems (rejects_value m)
    obtain ⟨b, -, hb⟩ := hl.trim_append rfl (w ++ r)
    exact Takes.choice_cons hb (rejects_string (by decide)) <|
      Takes.choice_cons hb (rejects_number rfl) (hlist.choice _)
  | @dict l w r ms d hl hr hw hm _ hd hget ih =>
    have hlen := length_bracketed hl hr w
    obtain ⟨m, rfl⟩ : ∃ m, n = m + 1 := ⟨n - 1, by omega⟩
    have hbodies : ∀ e ∈ ms, (rules.parser (m + 1) "value").Takes e.body e.value := by
      intro e he
      have hle := hw.length_le (List.mem_map_of_mem he)
      have hbody := e.length_body_le
      exact ih e he (by omega)
    have hdict := takes_dict (fun name => rules.agrees _ _ name) hl hr hw hm hbodies hd hget
    obtain ⟨b, -, hb⟩ := hl.trim_append rfl (w ++ r)
    exact Takes.choice_cons hb (rejects_string (by decide)) <|
      Takes.choice_cons hb (rejects_number rfl) <|
      Takes.choice_cons hb (rejects_list rfl (by decide)) (hdict.choice _)

/-! ## Documents -/

theorem accepts_allSpace (R : String → Parser Value) (cs : List Char) :
    (Grammar.allSpace.denote R).Accepts cs .nothing (trim cs) := by
  rw [denote_allSpace]
  have hspaces : ∀ c ∈ cs.takeWhile Predicate.isSpace, Predicate.isSpace c = true :=
    fun _ hc => List.mem_takeWhile_imp hc
  have hrounds := Repetition.rounds_characters (r := spaces) rfl
    (fun cs => ((accepts_succeed () cs).map _).skip)
    (fun c s hc => ((accepts_charIf hc s).map Value.char).skip.map fun _ => Value.nothing)
    (fun s hs => ((rejects_charIf hs).map _).skip.map _) hspaces
    (stops_dropWhile Predicate.isSpace cs) 0
  rw [List.takeWhile_append_dropWhile] at hrounds
  exact (hrounds.accepts agrees_spaces (Nat.zero_le _) .nothing).map _

theorem accepts_document {text : List Char} (h : Document text v) {n : Nat} (hn : text.length ≤ n) :
    (document.start.denote (rules.parser (n + 1))).Accepts text v [] := by
  obtain ⟨a, w, b, ha, hb, hw, rfl⟩ := h
  have hlen : w.length ≤ n := by
    simp only [List.length_append] at hn
    omega
  obtain ⟨hne, htake⟩ := takes_value hw hlen
  have hends : Ends b := by
    rw [← List.append_nil b]
    exact hb.ends nofun
  obtain ⟨c, s, hc, rfl, hvalue⟩ := htake hends
  have hbegin := accepts_allSpace (rules.parser (n + 1)) (a ++ (w ++ (c ++ s)))
  rw [trim_append_of_spaces ha, trim_append hne] at hbegin
  have hend : trim s = [] := List.dropWhile_eq_nil_iff.2 fun d hd => hb d (List.mem_append_right c hd)
  have hbehind := accepts_allSpace (rules.parser (n + 1)) s
  rw [hend] at hbehind
  rw [denote_document]
  exact hbegin.bind (hvalue.bind (hbehind.map _))

end Catalog.Json

end PegParsing
