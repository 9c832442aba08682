/-!
# Texts as characters and as bytes

A text is a list of characters; its bytes are the UTF-8 forms of its characters one after the
other. Positions in a text are byte offsets, so cutting a text at an offset works only where a
character begins: `takeBytes?` and `dropBytes?` answer `none` inside a character and beyond the
end of the text. `slice?_eq_some` says what a slice is, and `slice?_append` where there is one.

A text may come from a reader, which delivers its characters one by one and may fail at any of them
(`ofReads`).
-/

namespace PegParsing.Text

/-- The UTF-8 form of a text. -/
def utf8 (cs : List Char) : List UInt8 :=
  cs.flatMap String.utf8EncodeChar

/-- The number of bytes of a text. -/
def byteLength : List Char → Nat
  | [] => 0
  | c :: cs => c.utf8Size + byteLength cs

/-- The characters that fill the first `n` bytes exactly. -/
def takeBytes? : Nat → List Char → Option (List Char)
  | 0, _ => some []
  | _ + 1, [] => none
  | n + 1, c :: cs =>
    if c.utf8Size ≤ n + 1 then (takeBytes? (n + 1 - c.utf8Size) cs).map (c :: ·) else none

/-- The characters left behind the first `n` bytes. -/
def dropBytes? : Nat → List Char → Option (List Char)
  | 0, cs => some cs
  | _ + 1, [] => none
  | n + 1, c :: cs => if c.utf8Size ≤ n + 1 then dropBytes? (n + 1 - c.utf8Size) cs else none

/-- The characters between the byte offsets `i` and `j`, if both are borders of characters and
neither lies behind the text. -/
def slice? (cs : List Char) (i j : Nat) : Option (List Char) :=
  (dropBytes? i cs).bind (takeBytes? (j - i))

/-! ## Lengths -/

@[simp] theorem byteLength_nil : byteLength [] = 0 := rfl

@[simp] theorem byteLength_cons (c : Char) (cs : List Char) :
    byteLength (c :: cs) = c.utf8Size + byteLength cs := rfl

@[simp] theorem byteLength_append (cs ds : List Char) :
    byteLength (cs ++ ds) = byteLength cs + byteLength ds := by
  induction cs with
  | nil => simp
  | cons c cs ih => simp [ih, Nat.add_assoc]

@[simp] theorem utf8_append (cs ds : List Char) : utf8 (cs ++ ds) = utf8 cs ++ utf8 ds := by
  simp [utf8]

theorem length_utf8 (cs : List Char) : (utf8 cs).length = byteLength cs := by
  induction cs with
  | nil => rfl
  | cons c cs ih => simp_all [utf8, String.length_utf8EncodeChar]

/-! ## The first character of some bytes -/

theorem utf8EncodeChar_append_inj {c d : Char} {x y : List UInt8}
    (h : String.utf8EncodeChar c ++ x = String.utf8EncodeChar d ++ y) : c = d ∧ x = y := by
  have hcd : c = d := by
    have hx := @ByteArray.utf8DecodeChar?_utf8EncodeChar_append x.toByteArray c
    have hy := @ByteArray.utf8DecodeChar?_utf8EncodeChar_append y.toByteArray d
    rw [← List.toByteArray_append, h, List.toByteArray_append, hy] at hx
    exact (Option.some.inj hx).symm
  subst hcd
  exact ⟨rfl, List.append_cancel_left h⟩

/-- A text whose bytes begin another text's bytes begins that text. -/
theorem exists_append_of_utf8 {p cs : List Char} {x : List UInt8} (h : utf8 cs = utf8 p ++ x) :
    ∃ s, cs = p ++ s ∧ utf8 s = x := by
  induction p generalizing cs with
  | nil => exact ⟨cs, rfl, h⟩
  | cons c p ih =>
    cases cs with
    | nil =>
      have := congrArg List.length h
      have hc := Char.utf8Size_pos c
      simp only [utf8, List.flatMap_nil, List.flatMap_cons, List.length_append, List.length_nil,
        String.length_utf8EncodeChar] at this
      omega
    | cons d cs =>
      obtain ⟨rfl, hcs⟩ := utf8EncodeChar_append_inj (by simpa [utf8] using h)
      obtain ⟨s, rfl, hs⟩ := ih hcs
      exact ⟨s, rfl, hs⟩

/-! ## Cuts -/

theorem byteLength_of_takeBytes? {n : Nat} {cs p : List Char} (h : takeBytes? n cs = some p) :
    byteLength p = n := by
  fun_induction takeBytes? n cs generalizing p with
  | case1 => simp_all
  | case2 => simp at h
  | case3 n c cs hc ih =>
    obtain ⟨q, hq, rfl⟩ := Option.map_eq_some_iff.1 h
    have := ih hq
    simp only [byteLength_cons]
    omega
  | case4 => simp at h

theorem append_drop_of_takeBytes? {n : Nat} {cs p : List Char} (h : takeBytes? n cs = some p) :
    p ++ cs.drop p.length = cs := by
  fun_induction takeBytes? n cs generalizing p with
  | case1 => cases h; rfl
  | case2 => cases h
  | case3 n c cs hc ih =>
    obtain ⟨q, hq, rfl⟩ := Option.map_eq_some_iff.1 h
    simp [ih hq]
  | case4 => cases h

theorem exists_cut_of_dropBytes? {n : Nat} {cs r : List Char} (h : dropBytes? n cs = some r) :
    ∃ p, byteLength p = n ∧ p ++ r = cs := by
  fun_induction dropBytes? n cs generalizing r with
  | case1 cs => cases h; exact ⟨[], rfl, rfl⟩
  | case2 => cases h
  | case3 n c cs hc ih =>
    obtain ⟨p, hp, rfl⟩ := ih h
    refine ⟨c :: p, ?_, rfl⟩
    rw [byteLength_cons]
    omega
  | case4 => cases h

theorem byteLength_eq_zero {cs : List Char} : byteLength cs = 0 ↔ cs = [] := by
  cases cs with
  | nil => simp
  | cons c cs =>
    have := Char.utf8Size_pos c
    simp only [byteLength_cons, reduceCtorEq, iff_false]
    omega

/-- Of two beginnings of a text, the one with fewer bytes begins the other. -/
theorem prefix_of_byteLength_le {p q cs : List Char} (hp : p <+: cs) (hq : q <+: cs)
    (hle : byteLength p ≤ byteLength q) : p <+: q := by
  rcases List.prefix_or_prefix_of_prefix hp hq with h | ⟨s, rfl⟩
  · exact h
  · rw [byteLength_append] at hle
    obtain rfl := byteLength_eq_zero.1 (show byteLength s = 0 by omega)
    exact ⟨[], by rw [List.append_nil, List.append_nil]⟩

theorem takeBytes?_append (p r : List Char) : takeBytes? (byteLength p) (p ++ r) = some p := by
  induction p with
  | nil => simp [takeBytes?]
  | cons c p ih =>
    have hc := Char.utf8Size_pos c
    obtain ⟨n, hn⟩ : ∃ n, c.utf8Size + byteLength p = n + 1 := ⟨_, (Nat.succ_pred (by omega)).symm⟩
    have hle : c.utf8Size ≤ n + 1 := by omega
    have hsub : n + 1 - c.utf8Size = byteLength p := by omega
    rw [byteLength_cons, hn, List.cons_append, takeBytes?, if_pos hle, hsub, ih]
    rfl

theorem dropBytes?_append (p r : List Char) : dropBytes? (byteLength p) (p ++ r) = some r := by
  induction p with
  | nil => simp [dropBytes?]
  | cons c p ih =>
    have hc := Char.utf8Size_pos c
    obtain ⟨n, hn⟩ : ∃ n, c.utf8Size + byteLength p = n + 1 := ⟨_, (Nat.succ_pred (by omega)).symm⟩
    have hle : c.utf8Size ≤ n + 1 := by omega
    have hsub : n + 1 - c.utf8Size = byteLength p := by omega
    rw [byteLength_cons, hn, List.cons_append, dropBytes?, if_pos hle, hsub, ih]

/-- A slice is what stands between a text before it, which is as long as its start says, and a text
behind it. -/
theorem slice?_eq_some {cs m : List Char} {i j : Nat} (h : slice? cs i j = some m) :
    ∃ p r, cs = p ++ m ++ r ∧ byteLength p = i ∧ byteLength m = j - i := by
  obtain ⟨t, ht, hm⟩ := Option.bind_eq_some_iff.1 h
  obtain ⟨p, hp, rfl⟩ := exists_cut_of_dropBytes? ht
  have hlen := byteLength_of_takeBytes? hm
  refine ⟨p, t.drop m.length, ?_, hp, hlen⟩
  rw [List.append_assoc, append_drop_of_takeBytes? hm]

theorem slice?_append (p m r : List Char) :
    slice? (p ++ m ++ r) (byteLength p) (byteLength p + byteLength m) = some m := by
  rw [slice?, List.append_assoc, dropBytes?_append, Option.bind_some, Nat.add_sub_cancel_left,
    takeBytes?_append]

/-! ## Texts from a reader -/

/-- The characters that a reader delivers, in order. What it fails to read is passed over. -/
def ofReads {ε : Type} : List (Except ε Char) → List Char
  | [] => []
  | .error _ :: rs => ofReads rs
  | .ok c :: rs => c :: ofReads rs

theorem ofReads_eq_filterMap {ε : Type} (rs : List (Except ε Char)) :
    ofReads rs = rs.filterMap Except.toOption := by
  fun_induction ofReads rs with
  | case1 => rfl
  | case2 _ rs ih => exact ih
  | case3 c rs ih => rw [ih, List.filterMap_cons]; rfl

/-- A reader that does not fail delivers the whole text. -/
theorem ofReads_map_ok {ε : Type} (cs : List Char) :
    ofReads (cs.map (Except.ok : Char → Except ε Char)) = cs := by
  induction cs with
  | nil => rfl
  | cons c cs ih => rw [List.map_cons, ofReads, ih]

/-- A failure loses nothing that was read before it or is read behind it. -/
theorem ofReads_append_error {ε : Type} (rs ss : List (Except ε Char)) (e : ε) :
    ofReads (rs ++ .error e :: ss) = ofReads rs ++ ofReads ss := by
  simp only [ofReads_eq_filterMap, List.filterMap_append, List.filterMap_cons]
  rfl

end PegParsing.Text
