import Ucg.FilterSpecs

/-! The definitions that leave a `TypeManager` as it is: they give a type what it has. -/

namespace Ucg

open ByteOrder

namespace TypeMap

variable {m : TypeMap} {T : Bytes} {filters : List Bytes}

def entryOf (filters : List Bytes) : Option (List Bytes) :=
  if filters = [] then none else some filters

theorem pushAll_eq_self_iff : m.pushAll T filters = m ↔ filters = [] := by
  constructor
  · intro h
    by_contra hne
    have hfind := find?_pushAll m T filters T
    rw [h, if_pos ⟨rfl, hne⟩] at hfind
    cases hm : m.find? T with
    | none => simp [hm] at hfind
    | some old => simp [hm, hne] at hfind
  · rintro rfl
    rfl

theorem pushAll_erase_eq_self_iff :
    pushAll (m.erase T) T filters = m ↔ m.find? T = entryOf filters := by
  have hfind (t : Bytes) : (pushAll (m.erase T) T filters).find? t =
      if t = T then entryOf filters else m.find? t := by
    rw [find?_pushAll, SortedMap.find?_erase, SortedMap.find?_erase, if_pos rfl, entryOf]
    by_cases ht : t = T <;> by_cases hfilters : filters = [] <;> simp [ht, hfilters]
  constructor
  · intro h
    have hT := hfind T
    rwa [h, if_pos rfl] at hT
  · intro h
    refine SortedMap.eq_of_find? fun t => ?_
    rw [hfind]
    split_ifs with ht
    · rw [ht, h]
    · rfl

theorem erase_eq_self_iff : m.erase T = m ↔ m.find? T = none := @pushAll_erase_eq_self_iff m T []

end TypeMap

namespace TypeManager

variable {tm tm' : TypeManager} {T spec filterType filterArgs : Bytes} {filters : List Bytes}

theorem define_eq_self_iff : tm.define T filters = tm ↔ filters = [] := by
  constructor
  · exact fun h => TypeMap.pushAll_eq_self_iff.mp (congrArg builtinAndUserTypeMap h)
  · rintro rfl
    rfl

theorem typeDel_define_eq_self_iff : (tm.typeDel T).2.define T filters = tm ↔
    tm.builtinAndUserTypeMap.find? T = TypeMap.entryOf filters ∧
      tm.activeTypeMap.find? T = TypeMap.entryOf filters := by
  rw [← TypeMap.pushAll_erase_eq_self_iff, ← TypeMap.pushAll_erase_eq_self_iff]
  constructor
  · exact fun h => ⟨congrArg builtinAndUserTypeMap h, congrArg activeTypeMap h⟩
  · rintro ⟨hdefined, hactive⟩
    change { tm with
      builtinAndUserTypeMap := TypeMap.pushAll (tm.builtinAndUserTypeMap.erase T) T filters
      activeTypeMap := TypeMap.pushAll (tm.activeTypeMap.erase T) T filters } = tm
    rw [hdefined, hactive]

theorem typeDel_eq_self_iff : (tm.typeDel T).2 = tm ↔
    tm.builtinAndUserTypeMap.find? T = none ∧ tm.activeTypeMap.find? T = none :=
  @typeDel_define_eq_self_iff tm T []

def storedFilters (filterType filterArgs : Bytes) : List Bytes :=
  (newFilters filterType filterArgs).map GivenFilter.stored

theorem typeAdd_cases {deleteTypeFirst : Bool}
    (h : tm.typeAddFromFilterSpecString deleteTypeFirst spec = .ok tm') :
    tm.includeExcludeGlobs.length < tm'.includeExcludeGlobs.length ∨
    ∃ T filterType filterArgs, split spec colon = [T, filterType, filterArgs] ∧
      (filterType = str "is" ∨ filterType = str "ext") ∧
      tm' = (tm.specBase deleteTypeFirst T).define T (storedFilters filterType filterArgs) := by
  obtain ⟨T, filterType, filterArgs, hsplit, -⟩ := typeAddFromFilterSpecString_cases h
  have hbase : (tm.specBase deleteTypeFirst T).includeExcludeGlobs = tm.includeExcludeGlobs := by
    cases deleteTypeFirst <;> rfl
  rcases typeAddFromFilterSpecString_eq hsplit h with ⟨htype, heq⟩ | ⟨-, heq⟩ | ⟨-, heq⟩
  · exact Or.inr ⟨T, filterType, filterArgs, hsplit, htype, heq⟩
  · refine Or.inl ?_
    have hglobs : tm'.includeExcludeGlobs =
        (tm.specBase deleteTypeFirst T).includeExcludeGlobs ++ [(filterArgs, false)] := by
      rw [heq]
      rfl
    rw [hglobs, hbase, List.length_append]
    exact Nat.lt_succ_self _
  · refine Or.inl ?_
    have hglobs : tm'.includeExcludeGlobs =
        (tm.specBase deleteTypeFirst T).includeExcludeGlobs ++ [(filterArgs, true)] := by
      rw [heq]
      exact (sameDefinitions_call _ (.type T)).includeExcludeGlobs
    rw [hglobs, hbase, List.length_append]
    exact Nat.lt_succ_self _

theorem storedFilters_eq_nil_iff (h : filterType = str "is" ∨ filterType = str "ext") :
    storedFilters filterType filterArgs = [] ↔
      filterType = str "ext" ∧ split filterArgs comma = [] := by
  have hne : str "ext" ≠ str "is" := by decide
  rcases h with rfl | rfl
  · simp [storedFilters, newFilters, hne.symm]
  · simp [storedFilters, newFilters, hne]

theorem typeAdd_define {deleteTypeFirst : Bool} (hsplit : split spec colon = [T, filterType, filterArgs])
    (h : filterType = str "is" ∨ filterType = str "ext") :
    tm.typeAddFromFilterSpecString deleteTypeFirst spec =
      .ok ((tm.specBase deleteTypeFirst T).define T (storedFilters filterType filterArgs)) := by
  have hknown : filterType ∈ filterTypes := by
    rcases h with rfl | rfl <;> decide
  obtain ⟨tm', hok, -⟩ : ∃ tm', tm.typeAddFromFilterSpecString deleteTypeFirst spec = .ok tm' ∧
      tm.AddsFilters deleteTypeFirst T filterType filterArgs tm' := addsFilters_of_split hsplit hknown
  rcases typeAddFromFilterSpecString_eq hsplit hok with ⟨-, rfl⟩ | ⟨hglobx, -⟩ | ⟨hglob, -⟩
  · exact hok
  · subst hglobx
    exact absurd h (by decide)
  · subst hglob
    exact absurd h (by decide)

/-- The definition adds no filter to a type, or it replaces the filters of a type by themselves, or
it deletes what is not there. -/
def ChangesNothing (tm : TypeManager) : FileTypeParam → Prop
  | .typeAdd spec => ∃ T exts, split spec colon = [T, str "ext", exts] ∧ split exts comma = []
  | .typeSet spec => ∃ T filterType filterArgs, split spec colon = [T, filterType, filterArgs] ∧
      (filterType = str "is" ∨ filterType = str "ext") ∧
      tm.builtinAndUserTypeMap.find? T = TypeMap.entryOf (storedFilters filterType filterArgs) ∧
      tm.activeTypeMap.find? T = TypeMap.entryOf (storedFilters filterType filterArgs)
  | .typeDel T => tm.builtinAndUserTypeMap.find? T = none ∧ tm.activeTypeMap.find? T = none
  | .ignoreFile spec => (∃ exts, split spec colon = [str "ext", exts] ∧ split exts comma = []) ∧
      (tm.builtinAndUserTypeMap.find? ignoreFileTypeName = none ∨
        tm.builtinAndUserTypeMap.find? ignoreFileTypeName = some [] ∧
          tm.activeTypeMap.find? ignoreFileTypeName = none)
  | .exclude _ | .include _ => False

theorem typeAdd_eq_self_iff : tm.typeAddFromFilterSpecString false spec = .ok tm ↔
    ∃ T exts, split spec colon = [T, str "ext", exts] ∧ split exts comma = [] := by
  constructor
  · intro h
    rcases typeAdd_cases h with hlt | ⟨T, filterType, filterArgs, hsplit, htype, heq⟩
    · exact absurd hlt (lt_irrefl _)
    · have hnone := define_eq_self_iff.mp heq.symm
      obtain ⟨rfl, hexts⟩ := (storedFilters_eq_nil_iff htype).mp hnone
      exact ⟨T, filterArgs, hsplit, hexts⟩
  · rintro ⟨T, exts, hsplit, hexts⟩
    have hnone : storedFilters (str "ext") exts = [] :=
      (storedFilters_eq_nil_iff (Or.inr rfl)).mpr ⟨rfl, hexts⟩
    rw [typeAdd_define hsplit (Or.inr rfl), hnone]
    rfl

theorem typeSet_eq_self_iff : tm.typeAddFromFilterSpecString true spec = .ok tm ↔
    tm.ChangesNothing (.typeSet spec) := by
  constructor
  · intro h
    rcases typeAdd_cases h with hlt | ⟨T, filterType, filterArgs, hsplit, htype, heq⟩
    · exact absurd hlt (lt_irrefl _)
    · exact ⟨T, filterType, filterArgs, hsplit, htype, typeDel_define_eq_self_iff.mp heq.symm⟩
  · rintro ⟨T, filterType, filterArgs, hsplit, htype, hsame⟩
    rw [typeAdd_define hsplit htype]
    exact congrArg _ (typeDel_define_eq_self_iff.mpr hsame)

theorem notype_eq_self_iff : (tm.notype T).2 = tm ↔ tm.builtinAndUserTypeMap.find? T = none ∨
    tm.builtinAndUserTypeMap.find? T = some [] ∧ tm.activeTypeMap.find? T = none := by
  cases hfind : tm.builtinAndUserTypeMap.find? T with
  | none => simp [notype, hfind]
  | some filters =>
    have hnotype := call_notype hfind
    rw [call] at hnotype
    rw [hnotype]
    constructor
    · intro h
      have hremoved := congrArg removedTypeFilters h
      have hnil : filters = [] := by simpa using hremoved
      exact Or.inr ⟨congrArg some hnil, TypeMap.erase_eq_self_iff.mp (congrArg activeTypeMap h)⟩
    · rintro (hnone | ⟨hnil, hactive⟩)
      · cases hnone
      · obtain rfl := Option.some.inj hnil
        rw [TypeMap.erase_eq_self_iff.mpr hactive, List.map_nil, List.append_nil]

theorem ignoreFile_eq_self_iff : tm.typeAddIgnoreFileFromFilterSpecString spec = .ok tm ↔
    tm.ChangesNothing (.ignoreFile spec) := by
  constructor
  · intro h
    obtain ⟨tm₁, hadd, htm⟩ := typeAddIgnoreFile_inversion h
    have hsame : tm₁.SameDefinitions tm := by
      have hcall := sameDefinitions_call tm₁ (.notype ignoreFileTypeName)
      rwa [call, ← htm] at hcall
    rcases typeAdd_cases hadd with hlt | ⟨T, filterType, filterArgs, hsplit, htype, rfl⟩
    · rw [hsame.includeExcludeGlobs] at hlt
      exact absurd hlt (lt_irrefl _)
    · rw [split_ignoreFileSpec] at hsplit
      obtain ⟨rfl, hspec⟩ := List.cons.inj hsplit
      have hnone := TypeMap.pushAll_eq_self_iff.mp hsame.builtinAndUserTypeMap.symm
      rw [hnone] at htm
      obtain ⟨rfl, hexts⟩ := (storedFilters_eq_nil_iff htype).mp hnone
      exact ⟨⟨filterArgs, hspec, hexts⟩, notype_eq_self_iff.mp htm.symm⟩
  · rintro ⟨⟨exts, hsplit, hexts⟩, hignored⟩
    have hadd : tm.typeAddFromFilterSpecString false (ignoreFileTypeName ++ str ":" ++ spec) =
        .ok tm :=
      typeAdd_eq_self_iff.mpr ⟨ignoreFileTypeName, exts, by rw [split_ignoreFileSpec, hsplit], hexts⟩
    rw [typeAddIgnoreFileFromFilterSpecString, hadd]
    exact congrArg Except.ok (notype_eq_self_iff.mpr hignored)

/-- A definition leaves the types as they are exactly when it gives them what they have. -/
theorem applyParam_eq_self_iff {p : FileTypeParam} :
    tm.applyParam p = .ok tm ↔ tm.ChangesNothing p := by
  cases p with
  | typeAdd spec => exact typeAdd_eq_self_iff
  | typeSet spec => exact typeSet_eq_self_iff
  | typeDel T => exact (Except.ok.injEq _ _).to_iff.trans typeDel_eq_self_iff
  | ignoreFile spec => exact ignoreFile_eq_self_iff
  | exclude glob =>
    refine iff_of_false (fun h => ?_) id
    obtain ⟨⟨exts, hsplit, -⟩, -⟩ := ignoreFile_eq_self_iff.mp h
    have hglobx : split (str "globx" ++ colon :: glob) colon = str "globx" :: split glob colon :=
      split_append_cons (by decide) (by decide)
    have hhead := List.head_eq_of_cons_eq (hglobx.symm.trans hsplit)
    exact absurd hhead (by decide)
  | «include» glob =>
    refine iff_of_false (fun h => ?_) id
    obtain ⟨tm₁, hadd, htm⟩ := typeAddIncludeGlob_inversion h
    have hsame : tm₁.SameDefinitions tm := by
      have hcall := sameDefinitions_call tm₁ (.type includeGlobFileTypeName)
      rwa [call, ← htm] at hcall
    have hspec : includeGlobFileTypeName ++ (str "glob:" ++ glob) =
        str "INCLUDE_GLOB_FILE_TYPE" ++ colon :: (str "glob" ++ colon :: glob) := rfl
    rcases typeAdd_cases hadd with hlt | ⟨T, filterType, filterArgs, hsplit, htype, -⟩
    · rw [hsame.includeExcludeGlobs] at hlt
      exact absurd hlt (lt_irrefl _)
    · rw [hspec, split_append_cons (by decide) (by decide),
        split_append_cons (by decide) (by decide)] at hsplit
      obtain ⟨-, hrest⟩ := List.cons.inj hsplit
      obtain ⟨rfl, -⟩ := List.cons.inj hrest
      exact absurd htype (by decide)

end TypeManager

end Ucg
