import Ucg.LeftoverGlobs

/-! What the definition of one type does to the files of the others. -/

namespace Ucg

open ByteOrder Transition TypeManager

namespace TypeManager

variable {tm tm' : TypeManager} {T fileType filterType filterArgs f : Bytes} {filters : List Bytes}

def DefinesFilter (tm : TypeManager) (T f : Bytes) : Prop :=
  ∃ filters, tm.builtinAndUserTypeMap.find? T = some filters ∧ f ∈ filters

theorem isActiveFilter_define : (tm.define T filters).IsActiveFilter f ↔
    tm.IsActiveFilter f ∨ f ∈ filters := by
  have hfind := TypeMap.find?_pushAll tm.activeTypeMap T filters
  constructor
  · rintro ⟨t, found, hfound, hf⟩
    have hpushed : (tm.activeTypeMap.pushAll T filters).find? t = some found := hfound
    rw [hfind] at hpushed
    split_ifs at hpushed with hcond
    · obtain rfl := Option.some.inj hpushed
      rcases List.mem_append.mp hf with hf | hf
      · cases hold : tm.activeTypeMap.find? T with
        | none => simp [hold] at hf
        | some old => exact Or.inl ⟨T, old, hold, by simpa [hold] using hf⟩
      · exact Or.inr hf
    · exact Or.inl ⟨t, found, hpushed, hf⟩
  · rintro (⟨t, found, hfound, hf⟩ | hf)
    · by_cases hcond : t = T ∧ filters ≠ []
      · refine ⟨t, found ++ filters, ?_, List.mem_append_left _ hf⟩
        refine (hfind t).trans ?_
        rw [if_pos hcond, ← hcond.1, hfound]
        rfl
      · exact ⟨t, found, (hfind t).trans (by rw [if_neg hcond, hfound]), hf⟩
    · refine ⟨T, (tm.activeTypeMap.find? T).getD [] ++ filters, ?_, List.mem_append_right _ hf⟩
      exact (hfind T).trans (if_pos ⟨rfl, List.ne_nil_of_mem hf⟩)

theorem find?_activeTypeMap_type (hfind : tm.builtinAndUserTypeMap.find? T = some filters)
    (hseen : tm.firstTypeHasBeenSeen = true) (t : Bytes) : (tm.type T).2.activeTypeMap.find? t =
      if t = T then some ((tm.activeTypeMap.find? T).getD filters) else tm.activeTypeMap.find? t := by
  change (tm.call (.type T)).activeTypeMap.find? t = _
  rw [call_type hfind, clearActive_of_seen hseen]
  exact SortedMap.find?_insert tm.activeTypeMap T t filters

theorem find?_defineGlob (tm : TypeManager) (T glob : Bytes) :
    (tm.defineGlob T glob).builtinAndUserTypeMap.find? T =
      some ((tm.builtinAndUserTypeMap.find? T).getD [] ++ [str "?" ++ glob]) := by
  refine (TypeMap.find?_pushAll tm.builtinAndUserTypeMap T [str "?" ++ glob] T).trans (if_pos ⟨rfl, ?_⟩)
  exact List.cons_ne_nil _ _

theorem mem_defineGlob {glob : Bytes} (hf : f ≠ str "?" ++ glob) :
    f ∈ (tm.builtinAndUserTypeMap.find? T).getD [] ++ [str "?" ++ glob] ↔ tm.DefinesFilter T f := by
  have hne : f ∉ [str "?" ++ glob] := by simpa using hf
  rw [List.mem_append, or_iff_left hne, DefinesFilter]
  cases tm.builtinAndUserTypeMap.find? T <;> simp

theorem isSelected_define : (tm.define T filters).IsSelected f ↔
    (tm.IsActiveFilter f ∨ f ∈ filters) ∧ ¬ tm.IsRemovedFilter f := by
  rw [IsSelected, isActiveFilter_define]
  rfl

/-- The first selection of a type leaves only what this type defines. -/
theorem isSelected_first_glob {glob : Bytes} (hseen : tm.firstTypeHasBeenSeen = false)
    (hf : f ≠ str "?" ++ glob) :
    ((tm.defineGlob T glob).type T).2.IsSelected f ↔ tm.DefinesFilter T f := by
  have hunseen : (tm.defineGlob T glob).firstTypeHasBeenSeen = false := hseen
  have hfind := find?_defineGlob tm T glob
  rw [IsSelected, isActiveFilter_type_of_unseen hfind hunseen, isRemovedFilter_type hfind,
    mem_defineGlob hf, not_and_not_right]
  exact ⟨And.left, fun h => ⟨h, fun _ => h⟩⟩

theorem find?_activeTypeMap_glob {glob : Bytes} (hseen : tm.firstTypeHasBeenSeen = true) (t : Bytes) :
    ((tm.defineGlob T glob).type T).2.activeTypeMap.find? t =
      (tm.define T [str "?" ++ glob]).activeTypeMap.find? t := by
  have hactive : (tm.defineGlob T glob).activeTypeMap.find? T =
      some ((tm.activeTypeMap.find? T).getD [] ++ [str "?" ++ glob]) :=
    (TypeMap.find?_pushAll tm.activeTypeMap T [str "?" ++ glob] T).trans
      (if_pos ⟨rfl, List.cons_ne_nil _ _⟩)
  rw [find?_activeTypeMap_type (find?_defineGlob tm T glob) hseen]
  split_ifs with ht
  · rw [hactive, ht]
    exact hactive.symm
  · rfl

theorem isSelected_glob {glob : Bytes} (hseen : tm.firstTypeHasBeenSeen = true)
    (hf : f ≠ str "?" ++ glob) : ((tm.defineGlob T glob).type T).2.IsSelected f ↔
      tm.IsActiveFilter f ∧ (tm.IsRemovedFilter f → tm.DefinesFilter T f) := by
  have hkept : ((tm.defineGlob T glob).type T).2.IsActiveFilter f ↔ tm.IsActiveFilter f := by
    have hdefine : (tm.define T [str "?" ++ glob]).IsActiveFilter f ↔ tm.IsActiveFilter f := by
      rw [isActiveFilter_define, List.mem_singleton, or_iff_left hf]
    rw [← hdefine, IsActiveFilter]
    simp only [find?_activeTypeMap_glob hseen]
    rfl
  rw [IsSelected, hkept, isRemovedFilter_type (find?_defineGlob tm T glob), mem_defineGlob hf,
    not_and_not_right]
  rfl

end TypeManager

/-- A name that is accepted on account of another type than `T`: it is looked up by a filter that
is active for this type, or by none, and the glob that decides was given for this type. -/
def AcceptedForOther (fnmatch : Bytes → Bytes → Bool) (ops : List TypeOp) (tm : TypeManager)
    (T name : Bytes) : Prop :=
  tm.compileTypeTables.fileShouldBeScanned fnmatch name = true ∧
    ((∃ U filters, U ≠ T ∧ tm.activeTypeMap.find? U = some filters ∧
        ∃ f ∈ lookupFilters name, f ∈ filters ∧ ¬ tm.IsRemovedFilter f) ∨
      ((¬ ∃ f ∈ lookupFilters name, tm.IsSelected f) ∧ ∃ g U, U ≠ T ∧ Given ops U (.glob g) ∧
        lastSuch (fun glob => fnmatch glob.1 name) tm.includeExcludeGlobs = some (g, true)))

/-- A filter that the name is looked up by comes to be selected. -/
def SelectsAnew (tm : TypeManager) (deleteTypeFirst : Bool) (T filterType filterArgs name : Bytes) : Prop :=
  ∃ f ∈ lookupFilters name,
    if filterType = str "glob" then
      (tm.specBase deleteTypeFirst T).DefinesFilter T f ∧
        (tm.firstTypeHasBeenSeen = true → (tm.specBase deleteTypeFirst T).IsActiveFilter f)
    else .lookup f ∈ newFilters filterType filterArgs ∧ ¬ tm.IsRemovedFilter f

/-- The definition takes a file away from another type: as the first selection, when neither an
old filter of `T`, the new glob nor an earlier glob matches the name, or for an exclude glob that a
later include glob overrides until a filter is selected. -/
def Narrows (fnmatch : Bytes → Bytes → Bool) (tm : TypeManager) (deleteTypeFirst : Bool)
    (T filterType filterArgs name : Bytes) : Prop :=
  (filterType = str "glob" ∧ tm.firstTypeHasBeenSeen = false ∧
      (¬ ∃ f ∈ lookupFilters name, (tm.specBase deleteTypeFirst T).DefinesFilter T f) ∧
      fnmatch filterArgs name = false ∧ tm.globVerdict fnmatch name ≠ some true) ∨
    (tm.isExcludedByAnyGlob fnmatch name = true ∧
      SelectsAnew tm deleteTypeFirst T filterType filterArgs name)

variable {fnmatch : Bytes → Bytes → Bool} {ops : List TypeOp} {tm tm' : TypeManager}
  {deleteTypeFirst : Bool} {spec T filterType filterArgs name f : Bytes}

section SpecBase

variable (tm deleteTypeFirst T)

theorem sameDefinitions_specBase :
    (tm.specBase deleteTypeFirst T).firstTypeHasBeenSeen = tm.firstTypeHasBeenSeen ∧
      (tm.specBase deleteTypeFirst T).removedTypeFilters = tm.removedTypeFilters ∧
      (tm.specBase deleteTypeFirst T).excludeGlobs = tm.excludeGlobs := by
  cases deleteTypeFirst <;> exact ⟨rfl, rfl, rfl⟩

theorem isRemovedFilter_specBase :
    (tm.specBase deleteTypeFirst T).IsRemovedFilter f ↔ tm.IsRemovedFilter f := by
  rw [IsRemovedFilter, (sameDefinitions_specBase tm deleteTypeFirst T).2.1, IsRemovedFilter]

theorem find?_activeTypeMap_specBase {U : Bytes} (hU : U ≠ T) :
    (tm.specBase deleteTypeFirst T).activeTypeMap.find? U = tm.activeTypeMap.find? U := by
  cases deleteTypeFirst with
  | false => rfl
  | true => exact (SortedMap.find?_erase tm.activeTypeMap T U).trans (if_neg hU)

theorem isActiveFilter_of_specBase (h : (tm.specBase deleteTypeFirst T).IsActiveFilter f) :
    tm.IsActiveFilter f := by
  cases deleteTypeFirst with
  | false => exact h
  | true =>
    obtain ⟨t, filters, hfind, hf⟩ := h
    have herased : (tm.activeTypeMap.erase T).find? t = some filters := hfind
    rw [SortedMap.find?_erase] at herased
    split_ifs at herased
    exact ⟨t, filters, herased, hf⟩

end SpecBase

theorem mem_newFilters_stored (hf : f ∈ lookupFilters name) :
    f ∈ (newFilters filterType filterArgs).map GivenFilter.stored ↔
      .lookup f ∈ newFilters filterType filterArgs := by
  rw [List.mem_map]
  constructor
  · rintro ⟨_ | glob, hg, rfl⟩
    · exact hg
    · exact absurd rfl (stored_ne_of_lookup hf)
  · exact fun hg => ⟨_, hg, rfl⟩

theorem isSelected_spec_iff (hsplit : split spec colon = [T, filterType, filterArgs])
    (hkind : filterType ≠ str "globx")
    (hadd : tm.typeAddFromFilterSpecString deleteTypeFirst spec = .ok tm')
    (hf : f ∈ lookupFilters name) : tm'.IsSelected f ↔
      if filterType = str "glob" then
        if tm.firstTypeHasBeenSeen = true then
          (tm.specBase deleteTypeFirst T).IsActiveFilter f ∧
            (tm.IsRemovedFilter f → (tm.specBase deleteTypeFirst T).DefinesFilter T f)
        else (tm.specBase deleteTypeFirst T).DefinesFilter T f
      else ((tm.specBase deleteTypeFirst T).IsActiveFilter f ∨
        .lookup f ∈ newFilters filterType filterArgs) ∧ ¬ tm.IsRemovedFilter f := by
  have hbase := isRemovedFilter_specBase (f := f) tm deleteTypeFirst T
  have hseen := (sameDefinitions_specBase tm deleteTypeFirst T).1
  rcases typeAddFromFilterSpecString_eq hsplit hadd with ⟨hfilter, rfl⟩ | ⟨hglobx, -⟩ | ⟨rfl, rfl⟩
  · have hne : filterType ≠ str "glob" := by
      rcases hfilter with rfl | rfl <;> decide
    rw [if_neg hne, isSelected_define, mem_newFilters_stored hf, hbase]
  · exact absurd hglobx hkind
  · rw [if_pos rfl, ← hseen, ← hbase]
    split_ifs with hs
    · exact isSelected_glob hs (stored_ne_of_lookup hf)
    · exact isSelected_first_glob (Bool.not_eq_true _ ▸ hs) (stored_ne_of_lookup hf)

theorem excludeGlobs_spec (hsplit : split spec colon = [T, filterType, filterArgs])
    (hkind : filterType ≠ str "globx")
    (hadd : tm.typeAddFromFilterSpecString deleteTypeFirst spec = .ok tm') :
    tm'.excludeGlobs = tm.excludeGlobs := by
  rw [← (sameDefinitions_specBase tm deleteTypeFirst T).2.2]
  rcases typeAddFromFilterSpecString_eq hsplit hadd with ⟨-, rfl⟩ | ⟨hglobx, -⟩ | ⟨-, rfl⟩
  · rfl
  · exact absurd hglobx hkind
  · exact (sameDefinitions_call _ (.type T)).excludeGlobs

theorem globVerdict_spec (fnmatch : Bytes → Bytes → Bool) (name : Bytes)
    (hsplit : split spec colon = [T, filterType, filterArgs])
    (hkind : filterType ≠ str "globx")
    (hadd : tm.typeAddFromFilterSpecString deleteTypeFirst spec = .ok tm') :
    tm'.globVerdict fnmatch name = some true ↔
      (filterType = str "glob" ∧ fnmatch filterArgs name = true) ∨ tm.globVerdict fnmatch name = some true := by
  have hglobs : tm'.includeExcludeGlobs = tm.includeExcludeGlobs ++ newGlobs filterType filterArgs := by
    rw [includeExcludeGlobs_spec hadd, specGlobs_eq hsplit]
  rw [globVerdict_eq, globVerdict_eq, hglobs, newGlobs, if_neg hkind]
  split_ifs with hglob
  · rw [lastSuch_concat]
    by_cases hmatch : fnmatch filterArgs name = true <;> simp [hglob, hmatch]
  · simp [hglob]

theorem selected_of_other (hsplit : split spec colon = [T, filterType, filterArgs])
    (hkind : filterType ≠ str "globx")
    (hadd : tm.typeAddFromFilterSpecString deleteTypeFirst spec = .ok tm')
    (hfirst : ¬ (filterType = str "glob" ∧ tm.firstTypeHasBeenSeen = false)) {U : Bytes}
    {filters : List Bytes} (hU : U ≠ T) (hfind : tm.activeTypeMap.find? U = some filters)
    (hf : f ∈ lookupFilters name) (hmem : f ∈ filters) (hremoved : ¬ tm.IsRemovedFilter f) :
    tm'.IsSelected f := by
  have hactive : (tm.specBase deleteTypeFirst T).IsActiveFilter f :=
    ⟨U, filters, (find?_activeTypeMap_specBase tm deleteTypeFirst T hU).trans hfind, hmem⟩
  rw [isSelected_spec_iff hsplit hkind hadd hf]
  split_ifs with hglob hseen
  · exact ⟨hactive, fun h => absurd h hremoved⟩
  · exact absurd ⟨hglob, Bool.not_eq_true _ ▸ hseen⟩ hfirst
  · exact ⟨Or.inl hactive, hremoved⟩

theorem selectsAnew_iff (hsplit : split spec colon = [T, filterType, filterArgs])
    (hkind : filterType ≠ str "globx")
    (hadd : tm.typeAddFromFilterSpecString deleteTypeFirst spec = .ok tm')
    (hnone : ¬ ∃ f ∈ lookupFilters name, tm.IsSelected f) :
    (∃ f ∈ lookupFilters name, tm'.IsSelected f) ↔
      SelectsAnew tm deleteTypeFirst T filterType filterArgs name := by
  refine exists_congr fun f => and_congr_right fun hf => ?_
  -- a filter that was active for lookups before was removed
  have hremoved : (tm.specBase deleteTypeFirst T).IsActiveFilter f → tm.IsRemovedFilter f := fun hactive =>
    by_contra fun h => hnone ⟨f, hf, isActiveFilter_of_specBase tm deleteTypeFirst T hactive, h⟩
  rw [isSelected_spec_iff hsplit hkind hadd hf]
  split_ifs with hglob hseen
  · exact ⟨fun h => ⟨h.2 (hremoved h.1), fun _ => h.1⟩, fun h => ⟨h.2 hseen, fun _ => h.1⟩⟩
  · exact ⟨fun h => ⟨h, fun hs => absurd hs hseen⟩, And.left⟩
  · exact and_congr_left fun h => or_iff_right fun hactive => h (hremoved hactive)

/-- The definition of a type takes no file away from another type, except as `Narrows` says. -/
theorem definition_keeps_others_iff (h : TypeRun ops tm) {spec : CString}
    (hsplit : split spec.bytes colon = [T, filterType, filterArgs])
    (hkind : filterType = str "ext" ∨ filterType = str "is" ∨ filterType = str "glob")
    (hstep : TypeStep tm (.add deleteTypeFirst spec) tm') (fnmatch : Bytes → Bytes → Bool)
    (name : CString) (hother : AcceptedForOther fnmatch ops tm T name.bytes) :
    tm'.compileTypeTables.fileShouldBeScanned fnmatch name.bytes = true ↔
      ¬ Narrows fnmatch tm deleteTypeFirst T filterType filterArgs name.bytes := by
  have hglobx : filterType ≠ str "globx" := by rcases hkind with rfl | rfl | rfl <;> decide
  have huncompiled := h.invariant.1
  have hverdict := globVerdict_spec fnmatch name.bytes hsplit hglobx hstep
  have hexcluded : tm'.isExcludedByAnyGlob fnmatch name.bytes = tm.isExcludedByAnyGlob fnmatch name.bytes := by
    rw [isExcludedByAnyGlob, excludeGlobs_spec hsplit hglobx hstep, isExcludedByAnyGlob]
  rw [fileShouldBeScanned_cases (hstep.uncompiled huncompiled) name.nulFree, hverdict, hexcluded]
  obtain ⟨haccepted, ⟨U, filters, hU, hfind, f, hf, hmem, hremoved⟩ | ⟨hnone, g, -, -, -, hlast⟩⟩ := hother
  · have hnot : tm.isExcludedByAnyGlob fnmatch name.bytes = false := by
      rcases (fileShouldBeScanned_cases huncompiled name.nulFree).mp haccepted with haccepted | haccepted
      · exact haccepted.2
      · exact absurd ⟨f, hf, ⟨U, filters, hfind, hmem⟩, hremoved⟩ haccepted.1
    by_cases hfirst : filterType = str "glob" ∧ tm.firstTypeHasBeenSeen = false
    · have hafter : (∃ f ∈ lookupFilters name.bytes, tm'.IsSelected f) ↔
          ∃ f ∈ lookupFilters name.bytes, (tm.specBase deleteTypeFirst T).DefinesFilter T f := by
        refine exists_congr fun f => and_congr_right fun hf => ?_
        rw [isSelected_spec_iff hsplit hglobx hstep hf, if_pos hfirst.1, if_neg (by simp [hfirst.2])]
      rw [hafter, Narrows]
      by_cases hdefines : ∃ f ∈ lookupFilters name.bytes, (tm.specBase deleteTypeFirst T).DefinesFilter T f
      · simp [hdefines, hnot]
      · by_cases hmatch : fnmatch filterArgs name.bytes = true <;> simp [hdefines, hnot, hfirst, hmatch]
    · refine iff_of_true (Or.inl ⟨⟨f, hf, ?_⟩, hnot⟩) ?_
      · exact selected_of_other hsplit hglobx hstep hfirst hU hfind hf hmem hremoved
      · rintro (⟨hglob, hseen, -⟩ | ⟨hexclude, -⟩)
        · exact hfirst ⟨hglob, hseen⟩
        · rw [hnot] at hexclude
          cases hexclude
  · have hinclude : tm.globVerdict fnmatch name.bytes = some true :=
      globVerdict_eq_some_true_iff.mpr ⟨g, hlast⟩
    rw [selectsAnew_iff hsplit hglobx hstep hnone, Narrows]
    by_cases hanew : SelectsAnew tm deleteTypeFirst T filterType filterArgs name.bytes <;>
      simp [hanew, hinclude]

theorem acceptedForOther_new : AcceptedForOther fnmatchStar [] .new (str "q") (str "a.c") := by
  have hcc := find?_builtinTypeMap_cc
  have hlookup : str ".c" ∈ lookupFilters (str "a.c") := by decide
  have hkept : ¬ TypeManager.new.IsRemovedFilter (str ".c") := List.not_mem_nil
  have hactive : TypeManager.new.IsActiveFilter (str ".c") := ⟨_, _, hcc, by simp⟩
  refine ⟨?_, Or.inl ⟨str "cc", _, by decide, hcc, str ".c", hlookup, by simp, hkept⟩⟩
  rw [fileShouldBeScanned_cases onlyDefined_new.uncompiled (by decide)]
  exact Or.inl ⟨⟨str ".c", hlookup, hactive, hkept⟩, rfl⟩

theorem definition_keeps_others_iff_ext :
    (TypeManager.new.typeAddExt (str "q") (str "q")).compileTypeTables.fileShouldBeScanned fnmatchStar
      (str "a.c") = true := by
  have hsplit : split (str "q:ext:q") colon = [str "q", str "ext", str "q"] := by decide
  have hstep : TypeStep .new (.add false ⟨str "q:ext:q", by decide⟩)
      (TypeManager.new.typeAddExt (str "q") (str "q")) :=
    typeAddFromFilterSpecString_ext hsplit (by decide)
  refine (definition_keeps_others_iff typeRun_nil hsplit (Or.inl rfl) hstep fnmatchStar
    ⟨str "a.c", by decide⟩ acceptedForOther_new).mpr ?_
  rintro (⟨hglob, -⟩ | ⟨hexclude, -⟩)
  · exact absurd hglob (by decide)
  · cases hexclude

/-- The first definition of a glob deselects all other types: `a.c` is no longer accepted. -/
theorem not_definition_keeps_others : ¬ ∀ (ops : List TypeOp) (tm tm' : TypeManager)
    (deleteTypeFirst : Bool) (spec : CString) (T filterType filterArgs : Bytes) (name : CString),
    TypeRun ops tm → split spec.bytes colon = [T, filterType, filterArgs] →
    (filterType = str "ext" ∨ filterType = str "is" ∨ filterType = str "glob") →
    TypeStep tm (.add deleteTypeFirst spec) tm' →
    AcceptedForOther fnmatchStar ops tm T name.bytes →
    tm'.compileTypeTables.fileShouldBeScanned fnmatchStar name.bytes = true := by
  intro h
  have hstep := typeStep_globSpec
  have haccepted := h [] _ _ false ⟨str "q:glob:*.q", by decide⟩ _ _ _ ⟨str "a.c", by decide⟩ typeRun_nil split_globSpec
    (Or.inr (Or.inr rfl)) hstep acceptedForOther_new
  rw [fileShouldBeScanned_cases (hstep.uncompiled onlyDefined_new.uncompiled) (by decide)] at haccepted
  rcases haccepted with ⟨⟨f, hf, hselected⟩, -⟩ | ⟨-, hverdict⟩
  · rw [typeAddGlobInclude_eq, isSelected_first_glob rfl (stored_ne_of_lookup hf)] at hselected
    obtain ⟨filters, hfind, -⟩ := hselected
    cases find?_builtinTypeMap_q.symm.trans hfind
  · rw [globVerdict_eq, includeExcludeGlobs_step hstep] at hverdict
    cases hverdict

end Ucg
