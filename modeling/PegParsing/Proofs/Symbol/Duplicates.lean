import PegParsing.Proofs.Symbol.LongestMatch

/-!
# Keys that are given twice

A table cannot be built from entries two of which have equal keys. The entries are sorted and only
neighbours are compared. This finds every such pair, since equal keys become neighbours, and since
the sort keeps the order of entries with equal keys (`filter_sort`), the key that is reported is the
second occurrence of the least key that was given more than once, as it was written there. Without
such a pair the table holds what was given (`ofEntries_detects`).
-/

namespace PegParsing.SymbolTable

variable {α : Type} {case : LetterCase} {es : List (String × α)} {a b c d : String × α}

/-- The first of two entries stands before the second, and their keys are equal. -/
def Repeats (case : LetterCase) (es : List (String × α)) (a b : String × α) : Prop :=
  [a, b].Sublist es ∧ case.keyOrder a b = .eq

/-- Just one of the entries before this one has its key. -/
def IsSecond (case : LetterCase) (es : List (String × α)) (b : String × α) : Prop :=
  ∃ before a between after, es = before ++ a :: (between ++ b :: after) ∧ case.keyOrder a b = .eq ∧
    (∀ x ∈ before, case.keyOrder x b ≠ .eq) ∧ ∀ x ∈ between, case.keyOrder x b ≠ .eq

/-! ## Entries with one key -/

/-- The entries with the key of `b`, in their order. -/
def withKeyOf (case : LetterCase) (b : String × α) (es : List (String × α)) : List (String × α) :=
  es.filter fun x => case.keyOrder x b == .eq

theorem withKeyOf_congr (h : case.keyOrder b c = .eq) (es : List (String × α)) :
    withKeyOf case b es = withKeyOf case c es := by
  unfold withKeyOf
  refine List.filter_congr fun x _ => ?_
  rw [Std.TransCmp.congr_right h]

theorem withKeyOf_eq_nil : withKeyOf case b es = [] ↔ ∀ x ∈ es, case.keyOrder x b ≠ .eq := by
  unfold withKeyOf
  simp only [List.filter_eq_nil_iff, beq_iff_eq, ne_eq]

theorem isSecond_iff : IsSecond case es b ↔ ∃ a rest, withKeyOf case b es = a :: b :: rest := by
  have hself : case.keyOrder b b = .eq := Std.ReflCmp.compare_self
  constructor
  · rintro ⟨before, a, between, after, rfl, hab, hbefore, hbetween⟩
    refine ⟨a, withKeyOf case b after, ?_⟩
    have hfirst := withKeyOf_eq_nil.2 hbefore
    have hnext := withKeyOf_eq_nil.2 hbetween
    unfold withKeyOf at *
    simp only [List.filter_append, List.filter_cons, hfirst, hnext, hab, hself, beq_self_eq_true,
      if_true, List.nil_append]
  · rintro ⟨a, rest, h⟩
    obtain ⟨before, tail, rfl, hbefore, hab, htail⟩ := List.filter_eq_cons_iff.1 h
    obtain ⟨between, after, rfl, hbetween, -, -⟩ := List.filter_eq_cons_iff.1 htail
    simp only [beq_iff_eq] at hbefore hab hbetween
    exact ⟨before, a, between, after, rfl, hab, hbefore, hbetween⟩

theorem IsSecond.exists_repeats (h : IsSecond case es b) : ∃ a, Repeats case es a b := by
  obtain ⟨before, a, between, after, rfl, hab, -⟩ := h
  have hpair : [a, b].Sublist (a :: (between ++ b :: after)) := by
    refine .cons_cons a (List.singleton_sublist.2 ?_)
    exact List.mem_append_right between List.mem_cons_self
  exact ⟨a, hpair.trans (List.sublist_append_right before _), hab⟩

/-! ## What the sort keeps -/

/-- Entries with equal keys keep their order. -/
theorem filter_sort (case : LetterCase) (b : String × α) (es : List (String × α)) :
    withKeyOf case b (sort case es) = withKeyOf case b es := by
  have heq : ∀ x ∈ withKeyOf case b es, case.keyOrder x b = .eq := fun x hx =>
    beq_iff_eq.1 (List.mem_filter.1 hx).2
  have hle : (withKeyOf case b es).Pairwise fun x y => (case.keyOrder x y).isLE := by
    refine List.pairwise_iff_forall_sublist.2 fun {x y} hxy => ?_
    have hx := heq x (hxy.subset List.mem_cons_self)
    have hy := heq y (hxy.subset (List.mem_cons_of_mem x List.mem_cons_self))
    rw [Std.TransCmp.congr_left hx, Std.OrientedCmp.eq_symm hy]
    rfl
  have hsub : (withKeyOf case b es).Sublist (sort case es) :=
    List.sublist_mergeSort (fun _ _ _ => Std.TransCmp.isLE_trans) (keyOrder_total case) hle
      List.filter_sublist
  have hself : withKeyOf case b (withKeyOf case b es) = withKeyOf case b es :=
    List.filter_eq_self.2 fun x hx => beq_iff_eq.2 (heq x hx)
  have hkept : (withKeyOf case b es).Sublist (withKeyOf case b (sort case es)) := by
    have h := hsub.filter fun x => case.keyOrder x b == .eq
    rwa [show (withKeyOf case b es).filter _ = _ from hself] at h
  -- they are as many before the sort as behind it
  have hperm : (withKeyOf case b (sort case es)).Perm (withKeyOf case b es) :=
    (List.mergeSort_perm es _).filter _
  exact (hkept.eq_of_length hperm.length_eq.symm).symm

theorem Repeats.sort (h : Repeats case es a b) : Repeats case (sort case es) a b := by
  refine ⟨List.pair_sublist_mergeSort (fun _ _ _ => Std.TransCmp.isLE_trans) (keyOrder_total case)
    ?_ h.1, h.2⟩
  rw [h.2]
  rfl

/-! ## The first equal neighbours -/

/-- Before the neighbours that are found, and up to the first of them, all keys increase. -/
theorem firstRepeat?_eq_some {key : String} (hle : es.Pairwise fun a b => (case.keyOrder a b).isLE)
    (h : firstRepeat? case es = some key) : ∃ before a b after, es = before ++ a :: b :: after ∧
      b.1 = key ∧ case.keyOrder a b = .eq ∧
      (before ++ [a]).Pairwise fun a b => case.keyOrder a b = .lt := by
  fun_induction firstRepeat? case es with
  | case1 a b es heq => exact ⟨[], a, b, es, rfl, Option.some.inj h, heq, List.pairwise_singleton _ a⟩
  | case2 a b es hne ih =>
    obtain ⟨hfirst, htail⟩ := List.pairwise_cons.1 hle
    obtain ⟨before, c, d, after, hes, hkey, hcd, hlt⟩ := ih htail h
    have hab : case.keyOrder a b = .lt :=
      (Ordering.isLE_iff_eq_lt_or_eq_eq.1 (hfirst b List.mem_cons_self)).resolve_right hne
    refine ⟨a :: before, c, d, after, congrArg (a :: ·) hes, hkey, hcd,
      List.pairwise_cons.2 ⟨fun x hx => ?_, hlt⟩⟩
    have hmem : x ∈ b :: es := by
      rw [hes, List.append_cons]
      exact List.mem_append_left _ hx
    rcases List.mem_cons.1 hmem with rfl | hx
    · exact hab
    · exact Std.TransCmp.lt_of_lt_of_isLE hab ((List.pairwise_cons.1 htail).1 x hx)
  | case3 => cases h

section Neighbours

variable {before after : List (String × α)}
  (hsort : sort case es = before ++ a :: b :: after) (hab : case.keyOrder a b = .eq)
  (hlt : (before ++ [a]).Pairwise fun a b => case.keyOrder a b = .lt)

include hsort hab hlt

theorem isSecond_of_neighbours : IsSecond case es b := by
  have hbefore : withKeyOf case b before = [] := by
    refine withKeyOf_eq_nil.2 fun x hx => ?_
    have hxa := (List.pairwise_append.1 hlt).2.2 x hx a (List.mem_singleton_self a)
    rw [← Std.TransCmp.congr_right hab, hxa]
    decide
  have hself : case.keyOrder b b = .eq := Std.ReflCmp.compare_self
  refine isSecond_iff.2 ⟨a, withKeyOf case b after, ?_⟩
  rw [← filter_sort, hsort]
  unfold withKeyOf at *
  simp only [List.filter_append, List.filter_cons, hbefore, hab, hself, beq_self_eq_true, if_true,
    List.nil_append]

/-- No key is less than that of the neighbours and given more than once. -/
theorem isLE_of_repeats (h : Repeats case es c d) : (case.keyOrder b d).isLE := by
  have hsorted := pairwise_sort case es
  obtain ⟨hpair, hcd⟩ := h.sort
  rw [hsort] at hsorted hpair
  obtain ⟨first, rest, heq, hfirst, hrest⟩ := List.sublist_append_iff.1 hpair
  have hfrom : ∀ x ∈ a :: b :: after, (case.keyOrder b x).isLE := by
    intro x hx
    rw [← Std.TransCmp.congr_left hab]
    rcases List.mem_cons.1 hx with rfl | hx
    · rw [(Std.ReflCmp.compare_self : case.keyOrder x x = .eq)]
      rfl
    · exact (List.pairwise_cons.1 (List.pairwise_append.1 hsorted).2.1).1 x hx
  rcases List.eq_nil_or_concat rest with rfl | ⟨rest, x, rfl⟩
  · -- both would stand before the neighbours, where keys increase
    rw [List.append_nil] at heq
    rw [← heq] at hfirst
    have hcd' := List.pairwise_iff_forall_sublist.1 (List.pairwise_append.1 hlt).1 hfirst
    cases hcd.symm.trans hcd'
  · rw [List.concat_eq_append] at heq hrest
    rw [← List.append_assoc] at heq
    obtain ⟨⟩ := List.append_inj_right' (show [c] ++ [d] = _ from heq) rfl
    exact hfrom d (hrest.subset (List.mem_append_right rest (List.mem_singleton_self d)))

end Neighbours

/-! ## Tables -/

/-- The least of the keys that were given more than once, where it was given for the second time. -/
def FirstDuplicate (case : LetterCase) (es : List (String × α)) (b : String × α) : Prop :=
  IsSecond case es b ∧ ∀ c d, Repeats case es c d → (case.keyOrder b d).isLE

theorem FirstDuplicate.unique (h : FirstDuplicate case es b) (h' : FirstDuplicate case es c) :
    b = c := by
  obtain ⟨x, hx⟩ := h.1.exists_repeats
  obtain ⟨y, hy⟩ := h'.1.exists_repeats
  have hkeys : case.keyOrder b c = .eq := Std.OrientedCmp.isLE_antisymm (h.2 y c hy) (h'.2 x b hx)
  obtain ⟨a, rest, ha⟩ := isSecond_iff.1 h.1
  obtain ⟨a', rest', ha'⟩ := isSecond_iff.1 h'.1
  rw [withKeyOf_congr hkeys] at ha
  exact (List.cons.inj (List.cons.inj (ha.symm.trans ha')).2).1

theorem exists_firstDuplicate {e : BuildError} (h : ofEntries case es = .error e) :
    ∃ b, e = .duplicateSymbol b.1 ∧ FirstDuplicate case es b := by
  unfold ofEntries at h
  split at h
  · rename_i key hkey
    cases h
    obtain ⟨before, a, b, after, hsort, rfl, hab, hlt⟩ :=
      firstRepeat?_eq_some (pairwise_sort case es) hkey
    exact ⟨b, rfl, isSecond_of_neighbours hsort hab hlt, fun c d h => isLE_of_repeats hsort hab hlt h⟩
  · cases h

/-- Of entries that make up a table no two have equal keys, in whatever order they are given. -/
theorem not_repeats_of_perm {t : SymbolTable α} (h : t.entries.toList.Perm es) :
    ¬ Repeats t.case es a b := by
  rintro ⟨hpair, hab⟩
  have hne : t.entries.toList.Pairwise fun a b => t.case.keyOrder a b ≠ .eq :=
    t.increasing.imp fun hlt heq => nomatch hlt.symm.trans heq
  have hsymm : ∀ {a b : String × α}, t.case.keyOrder a b ≠ .eq → t.case.keyOrder b a ≠ .eq :=
    fun hab hba => hab (Std.OrientedCmp.eq_symm hba)
  exact List.pairwise_iff_forall_sublist.1 (h.pairwise hne hsymm) hpair hab

/-- A table is known by its entries, in whatever order. -/
theorem eq_of_perm {t u : SymbolTable α} (hcase : t.case = u.case)
    (h : t.entries.toList.Perm u.entries.toList) : t = u := by
  obtain ⟨case, entries, ht⟩ := t
  obtain ⟨_, entries', hu⟩ := u
  obtain rfl := hcase
  have hentries : entries.toList = entries'.toList := by
    refine List.Perm.eq_of_pairwise (fun a b _ _ hab hba => ?_) ht hu h
    cases (Std.OrientedCmp.gt_of_lt hab).symm.trans hba
  obtain rfl := Array.ext' hentries
  rfl

theorem ofEntries_eq_ok_iff {t : SymbolTable α} : ofEntries case es = .ok t ↔
    t.case = case ∧ t.entries.toList.Perm es := by
  refine ⟨ofEntries_eq_ok, ?_⟩
  rintro ⟨rfl, hperm⟩
  have hne : es.Pairwise fun a b => t.case.keyOrder a b ≠ .eq :=
    List.pairwise_iff_forall_sublist.2 fun hpair hab => not_repeats_of_perm hperm ⟨hpair, hab⟩
  obtain ⟨u, hu⟩ := exists_ofEntries hne
  obtain ⟨hcase, hperm'⟩ := ofEntries_eq_ok hu
  rw [hu, eq_of_perm hcase (hperm'.trans hperm.symm)]

theorem exists_error_iff : (∃ e, ofEntries case es = .error e) ↔ ∃ a b, Repeats case es a b := by
  constructor
  · rintro ⟨e, he⟩
    obtain ⟨b, -, hsecond, -⟩ := exists_firstDuplicate he
    obtain ⟨a, hab⟩ := hsecond.exists_repeats
    exact ⟨a, b, hab⟩
  · rintro ⟨a, b, hab⟩
    cases h : ofEntries case es with
    | error e => exact ⟨e, rfl⟩
    | ok t =>
      obtain ⟨rfl, hperm⟩ := ofEntries_eq_ok h
      exact absurd hab (not_repeats_of_perm hperm)

theorem ofEntries_eq_error_iff {e : BuildError} : ofEntries case es = .error e ↔
    ∃ b, e = .duplicateSymbol b.1 ∧ FirstDuplicate case es b := by
  refine ⟨exists_firstDuplicate, ?_⟩
  rintro ⟨b, rfl, hb⟩
  obtain ⟨a, hab⟩ := hb.1.exists_repeats
  obtain ⟨e, he⟩ := exists_error_iff.2 ⟨a, b, hab⟩
  obtain ⟨c, rfl, hc⟩ := exists_firstDuplicate he
  rw [he, hb.unique hc]

/-- Entries make up a table unless two of them have equal keys. Of the keys that were given more than
once the least is reported then, as it was written the second time. Otherwise the table holds the given
entries, all of them and no others, in strictly increasing order of their keys. -/
theorem ofEntries_detects (case : LetterCase) (es : List (String × α)) :
    ((∃ e, ofEntries case es = .error e) ↔ ∃ a b, Repeats case es a b) ∧
      (∀ e, ofEntries case es = .error e ↔ ∃ b, e = .duplicateSymbol b.1 ∧ FirstDuplicate case es b) ∧
      ∀ t, ofEntries case es = .ok t ↔ t.case = case ∧ t.entries.toList.Perm es ∧
        t.entries.toList.Pairwise fun a b => case.keyOrder a b = .lt := by
  refine ⟨exists_error_iff, fun e => ofEntries_eq_error_iff, fun t => ?_⟩
  rw [ofEntries_eq_ok_iff]
  refine and_congr_right ?_
  rintro rfl
  exact (and_iff_left t.increasing).symm

end PegParsing.SymbolTable
