import Ucg.FilterSpecs

/-! What a specification with the filter `is` or `ext` accepts, where its type is the only one
selected. -/

namespace Ucg

open ByteOrder

namespace TypeManager

/-- A new type is defined by one specification, selected before any other, and compiled. -/
def definedAlone (tm : TypeManager) (T filterType filterArgs : Bytes) :
    Except TypeManagerException TypeManager := do
  let tm ← tm.typeAddFromFilterSpecString false (T ++ colon :: (filterType ++ colon :: filterArgs))
  return (tm.type T).2.compileTypeTables

/-- The state before: no type was selected, no glob was defined, and there is no type `T`. -/
structure FreshFor (tm : TypeManager) (T : Bytes) : Prop where
  uncompiled : tm.Uncompiled
  firstTypeHasBeenSeen : tm.firstTypeHasBeenSeen = false
  excludeGlobs : tm.excludeGlobs = []
  includeExcludeGlobs : tm.includeExcludeGlobs = []
  undefined : tm.builtinAndUserTypeMap.find? T = none

structure IsPart (s : Bytes) : Prop extends IsField colon s where
  nulFree : nul ∉ s

def IsBasename (n : Bytes) : Prop := slash ∉ n ∧ nul ∉ n

variable {tm : TypeManager} {T f e n N : Bytes} {fnmatch : Bytes → Bytes → Bool}

theorem fileShouldBeScanned_define_iff (h : tm.FreshFor T) (hT : IsPart T) (hf : nul ∉ f)
    (hn : nul ∉ n) :
    ((tm.define T [f]).type T).2.compileTypeTables.fileShouldBeScanned fnmatch n = true ↔
      f ∈ lookupFilters n := by
  have hfind : (tm.define T [f]).builtinAndUserTypeMap.find? T = some [f] := by
    change (tm.builtinAndUserTypeMap.pushAll T [f]).find? T = _
    rw [TypeMap.find?_pushAll, if_pos ⟨rfl, by simp⟩, h.undefined]
    rfl
  have hkept := keptByDefinitions_uncompiled
  have huncompiled : ((tm.define T [f]).type T).2.Uncompiled :=
    hkept.call _ (.type T) (hkept.typeAddIs tm T f h.uncompiled hT.ne_nil hT.nulFree hf)
  have hselected (f' : Bytes) : ((tm.define T [f]).type T).2.IsSelected f' ↔ f' = f := by
    rw [IsSelected, isActiveFilter_type_of_unseen hfind h.firstTypeHasBeenSeen,
      isRemovedFilter_type hfind, List.mem_singleton]
    tauto
  have hsame := sameDefinitions_call (tm.define T [f]) (.type T)
  have hexclude : ((tm.define T [f]).type T).2.isExcludedByAnyGlob fnmatch n = false := by
    rw [isExcludedByAnyGlob]
    change (((tm.define T [f]).call (.type T)).excludeGlobs.any (fnmatch · n)) = false
    rw [hsame.excludeGlobs]
    change (tm.excludeGlobs.any (fnmatch · n)) = false
    rw [h.excludeGlobs]
    rfl
  have hglobs : ((tm.define T [f]).type T).2.includeExcludeGlobs = [] :=
    hsame.includeExcludeGlobs.trans h.includeExcludeGlobs
  rw [fileShouldBeScanned_iff huncompiled hn (by simp [hglobs]), and_iff_left hexclude]
  simp only [hselected, exists_eq_right]

theorem rtakeWhile_append_dot (s : Bytes) (he : dot ∉ e) :
    (s ++ dot :: e).rtakeWhile (· ≠ dot) = e := by
  have hpos : ∀ c ∈ e.reverse, decide (c ≠ dot) = true := fun c hc =>
    decide_eq_true fun heq => he (heq ▸ List.mem_reverse.mp hc)
  rw [List.rtakeWhile, List.reverse_append, List.reverse_cons, List.append_assoc,
    List.takeWhile_append_of_pos hpos, List.singleton_append,
    List.takeWhile_cons_of_neg (by simp), List.append_nil, List.reverse_reverse]

theorem nameExtension_eq_some_iff : nameExtension n = some (dot :: e) ↔
    dot ∉ e ∧ ∃ s, s ≠ [] ∧ n = s ++ dot :: e := by
  rw [nameExtension]
  constructor
  · intro h
    split_ifs at h with hlength
    have hext : n.rtakeWhile (· ≠ dot) = e := (List.cons.inj (Option.some.inj h)).2
    have hsplit : n.rdropWhile (· ≠ dot) ++ n.rtakeWhile (· ≠ dot) = n :=
      List.rdropWhile_append_rtakeWhile
    rw [hext] at hlength hsplit
    have hlong : 2 ≤ (n.rdropWhile (· ≠ dot)).length := by
      have hsum := congrArg List.length hsplit
      rw [List.length_append] at hsum
      omega
    have hne : n.rdropWhile (· ≠ dot) ≠ [] := List.ne_nil_of_length_pos (by omega)
    have hlast := List.rdropWhile_last_not (· ≠ dot) n hne
    refine ⟨fun hmem => ?_, (n.rdropWhile (· ≠ dot)).dropLast, ?_, ?_⟩
    · have hfree := List.mem_rtakeWhile_imp (hext.symm ▸ hmem)
      simp at hfree
    · exact List.ne_nil_of_length_pos (by rw [List.length_dropLast]; omega)
    · have hconcat := List.dropLast_append_getLast hne
      have hdot : (n.rdropWhile (· ≠ dot)).getLast hne = dot := by simpa using hlast
      rw [hdot] at hconcat
      rw [← List.singleton_append, ← List.append_assoc, hconcat, hsplit]
  · rintro ⟨hfree, s, hs, rfl⟩
    have hpos := List.length_pos_iff.mpr hs
    rw [rtakeWhile_append_dot s hfree, if_pos]
    rw [List.length_append, List.length_cons]
    omega

theorem nameExtension_ne_self : nameExtension n ≠ some n := by
  intro h
  obtain ⟨e, rfl, -⟩ := nameExtension_eq_some h
  obtain ⟨hfree, s, hs, heq⟩ := nameExtension_eq_some_iff.mp h
  have hlength := congrArg List.length heq
  have hpos := List.length_pos_iff.mpr hs
  rw [List.length_append] at hlength
  omega

theorem mem_lookupFilters_iff : f ∈ lookupFilters n ↔
    nameExtension n = some f ∨ filterKind n = .literal ∧ n = f := by
  refine ⟨mem_lookupFilters, ?_⟩
  rintro (hext | ⟨hkind, rfl⟩)
  · exact List.mem_append_left _ (Option.mem_toList.mpr hext)
  · exact List.mem_append_right _ (by simp [hkind])

theorem mem_lookupFilters_self : n ∈ lookupFilters n ↔ filterKind n = .literal := by
  rw [mem_lookupFilters_iff, or_iff_right nameExtension_ne_self, and_iff_left rfl]

theorem filterKind_eq_literal_iff_head : filterKind N = .literal ↔
    N.head? ≠ some dot ∧ N.head? ≠ some slash ∧ N.head? ≠ some 63 := by
  have hglob : str "?" <+: N ↔ N.head? = some 63 := by
    have hstr : str "?" = [63] := by decide
    cases N with
    | nil => simp [hstr]
    | cons c rest =>
      rw [hstr, List.cons_prefix_cons, and_iff_left List.nil_prefix, eq_comm, List.head?_cons,
        Option.some.injEq]
  unfold filterKind
  simp only [hglob]
  by_cases hdot : N.head? = some dot
  · rw [if_pos hdot]
    split_ifs <;> simp [hdot]
  · by_cases hslash : N.head? = some slash
    · simp [hslash, dot, slash]
    · by_cases hq : N.head? = some 63
      · simp [hq, dot, slash]
      · simp [hdot, hslash, hq]

theorem filterKind_eq_literal_iff (hslash : slash ∉ N) :
    filterKind N = .literal ↔ N.head? ≠ some dot ∧ N.head? ≠ some 63 := by
  have hhead : N.head? ≠ some slash := fun h => hslash (List.mem_of_mem_head? h)
  rw [filterKind_eq_literal_iff_head, and_iff_right hhead]

theorem mem_lookupFilters_literal (hkind : filterKind N = .literal) :
    N ∈ lookupFilters n ↔ n = N := by
  rw [mem_lookupFilters_iff]
  constructor
  · rintro (hext | ⟨-, rfl⟩)
    · obtain ⟨e, rfl, -⟩ := nameExtension_eq_some hext
      rw [filterKind_dot] at hkind
      split_ifs at hkind
    · rfl
  · rintro rfl
    exact Or.inr ⟨hkind, rfl⟩

theorem mem_lookupFilters_dot : dot :: e ∈ lookupFilters n ↔
    dot ∉ e ∧ ∃ s, s ≠ [] ∧ n = s ++ dot :: e := by
  rw [mem_lookupFilters_iff, nameExtension_eq_some_iff, or_iff_left]
  rintro ⟨hkind, rfl⟩
  rw [filterKind_dot] at hkind
  split_ifs at hkind

theorem definedAlone_is (hT : IsPart T) (hN : IsPart N) :
    tm.definedAlone T (str "is") N = .ok ((tm.define T [N]).type T).2.compileTypeTables := by
  have hsplit := split_fields hT.toIsField (y := str "is") ⟨by decide, by decide⟩ hN.toIsField
  rw [definedAlone, typeAddFromFilterSpecString, hsplit]
  rfl

theorem definedAlone_ext (hT : IsPart T) (he : IsPart e) (hcomma : comma ∉ e) :
    tm.definedAlone T (str "ext") e =
      .ok ((tm.define T [dot :: e]).type T).2.compileTypeTables := by
  have hsplit := split_fields hT.toIsField (y := str "ext") ⟨by decide, by decide⟩ he.toIsField
  rw [definedAlone, typeAddFromFilterSpecString_ext hsplit (split_of_not_mem he.ne_nil hcomma)]
  rfl

/-- The specification is accepted, and with it the names that are in `accepted` and no others. -/
def AcceptsExactly (tm : TypeManager) (T filterType filterArgs : Bytes) (accepted : Bytes → Prop) :
    Prop :=
  ∃ tm', tm.definedAlone T filterType filterArgs = .ok tm' ∧ ∀ fnmatch n, IsBasename n →
    (tm'.fileShouldBeScanned fnmatch n = true ↔ accepted n)

theorem acceptsExactly_is_iff_lookup (h : tm.FreshFor T) (hT : IsPart T) (hN : IsPart N)
    {accepted : Bytes → Prop} : tm.AcceptsExactly T (str "is") N accepted ↔
      ∀ n, IsBasename n → (N ∈ lookupFilters n ↔ accepted n) := by
  rw [AcceptsExactly, definedAlone_is hT hN]
  constructor
  · rintro ⟨tm', hok, haccepts⟩ n hn
    obtain rfl := Except.ok.inj hok
    rw [← haccepts (fun _ _ => false) n hn, fileShouldBeScanned_define_iff h hT hN.nulFree hn.2]
  · exact fun haccepts => ⟨_, rfl, fun fnmatch n hn =>
      (fileShouldBeScanned_define_iff h hT hN.nulFree hn.2).trans (haccepts n hn)⟩

/-- A literal filename filter accepts that name alone exactly when the name does not begin with a
period or a question mark. -/
theorem acceptsExactly_is_iff (h : tm.FreshFor T) (hT : IsPart T) (hN : IsPart N)
    (hslash : slash ∉ N) : tm.AcceptsExactly T (str "is") N (· = N) ↔
      N.head? ≠ some dot ∧ N.head? ≠ some 63 := by
  rw [acceptsExactly_is_iff_lookup h hT hN, ← filterKind_eq_literal_iff hslash]
  constructor
  · exact fun haccepts => mem_lookupFilters_self.mp ((haccepts N ⟨hslash, hN.nulFree⟩).mpr rfl)
  · exact fun hkind n _ => mem_lookupFilters_literal hkind

theorem freshFor_new_q : TypeManager.new.FreshFor (str "q") :=
  ⟨onlyDefined_new.uncompiled, rfl, rfl, rfl, find?_builtinTypeMap_q⟩

theorem isPart_q : IsPart (str "q") := ⟨⟨by decide, by decide⟩, by decide⟩

theorem acceptsExactly_is_iff_x :
    TypeManager.new.AcceptsExactly (str "q") (str "is") (str "x") (· = str "x") :=
  (acceptsExactly_is_iff freshFor_new_q isPart_q ⟨⟨by decide, by decide⟩, by decide⟩ (by decide)).mpr
    (by decide)

/-- `.x` is taken for the extension of other names. -/
theorem not_acceptsExactly_is_dotX :
    ¬ TypeManager.new.AcceptsExactly (str "q") (str "is") (str ".x") (· = str ".x") := by
  rw [acceptsExactly_is_iff_lookup freshFor_new_q isPart_q ⟨⟨by decide, by decide⟩, by decide⟩]
  intro haccepts
  have hself := (haccepts (str ".x") ⟨by decide, by decide⟩).mpr rfl
  exact absurd (mem_lookupFilters_self.mp hself) (by decide)

/-- An extension filter accepts the names that end with a period and the extension and have
something in front, if there is no period in the extension, and otherwise no name. -/
theorem acceptsExactly_ext (h : tm.FreshFor T) (hT : IsPart T) (he : IsPart e) (hcomma : comma ∉ e) :
    tm.AcceptsExactly T (str "ext") e fun n => dot ∉ e ∧ ∃ s, s ≠ [] ∧ n = s ++ dot :: e := by
  refine ⟨_, definedAlone_ext hT he hcomma, fun fnmatch n hn => ?_⟩
  have hfilter : nul ∉ dot :: e := by simpa [dot, nul] using he.nulFree
  rw [fileShouldBeScanned_define_iff h hT hfilter hn.2, mem_lookupFilters_dot]

theorem acceptsExactly_ext_c : TypeManager.new.AcceptsExactly (str "q") (str "ext") (str "c")
    fun n => dot ∉ str "c" ∧ ∃ s, s ≠ [] ∧ n = s ++ dot :: str "c" :=
  acceptsExactly_ext freshFor_new_q isPart_q ⟨⟨by decide, by decide⟩, by decide⟩ (by decide)

/-- `x.a.b` ends with the extension `a.b`, and is looked up by the extension `b`. -/
theorem not_acceptsExactly_ext_aDotB :
    ¬ TypeManager.new.AcceptsExactly (str "q") (str "ext") (str "a.b")
      fun n => ∃ s, s ≠ [] ∧ n = s ++ dot :: str "a.b" := by
  rintro ⟨tm', hok, haccepts⟩
  rw [definedAlone_ext isPart_q ⟨⟨by decide, by decide⟩, by decide⟩ (by decide)] at hok
  obtain rfl := Except.ok.inj hok
  have hname := (haccepts (fun _ _ => false) (str "x.a.b") ⟨by decide, by decide⟩).mpr
    ⟨str "x", by decide, by decide⟩
  rw [fileShouldBeScanned_define_iff freshFor_new_q isPart_q (by decide) (by decide),
    mem_lookupFilters_dot] at hname
  exact hname.1 (by decide)

end TypeManager

end Ucg
