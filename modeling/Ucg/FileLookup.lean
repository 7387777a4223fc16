import Ucg.Lib.LastSuch
import Ucg.TypeTables

/-! `FileShouldBeScanned`: by which filters a file name is looked up, and what that says about
the types. -/

namespace Ucg

open ByteOrder

namespace TypeManager

/-- The filters that `FileShouldBeScanned` looks up for a name: its extension, and the name. -/
def lookupFilters (name : Bytes) : List Bytes :=
  (nameExtension name).toList ++ if filterKind name = .literal then [name] else []

theorem nameExtension_eq_some {name ext : Bytes} (h : nameExtension name = some ext) :
    ∃ e, ext = dot :: e ∧ e ⊆ name := by
  rw [nameExtension] at h
  split_ifs at h
  exact ⟨_, (Option.some.inj h).symm, (List.rtakeWhile_suffix _ _).subset⟩

theorem filterKind_dot {e : Bytes} : filterKind (dot :: e) =
    if e.length ≤ microstringMaxSize then .microstring else .extension := by
  simp [filterKind]

variable {tm : TypeManager} {name : Bytes} {fnmatch : Bytes → Bytes → Bool}

/-- A filter that `CompileTypeTables` puts into its table. -/
def IsSelected (tm : TypeManager) (f : Bytes) : Prop := tm.IsActiveFilter f ∧ ¬ tm.IsRemovedFilter f

theorem includesExtension_iff (h : tm.Uncompiled) {e : Bytes} (he : nul ∉ dot :: e) :
    tm.compileTypeTables.includesExtension (dot :: e) = true ↔ tm.IsSelected (dot :: e) := by
  rw [includesExtension, List.length_cons]
  by_cases hlen : e.length ≤ microstringMaxSize
  · have hkind : filterKind (dot :: e) = .microstring := by rw [filterKind_dot, if_pos hlen]
    rw [if_pos (by omega), List.contains_iff_mem, microstring_mem_fastIncludeExtensions h he hkind]
    rfl
  · have hkind : filterKind (dot :: e) = .extension := by rw [filterKind_dot, if_neg hlen]
    have htable : tm.compileTypeTables.includeExtensions = tm.filtersOfKind .extension := by
      rw [compileTypeTables, h.includeExtensions, List.nil_append]
    rw [if_neg (by omega), List.contains_iff_mem, htable, mem_filtersOfKind,
      and_iff_right hkind]
    rfl

theorem mem_includedLiteralFilenames_iff (h : tm.Uncompiled) :
    name ∈ tm.compileTypeTables.includedLiteralFilenames.map (·.1) ↔
      filterKind name = .literal ∧ tm.IsSelected name := by
  have htable : tm.compileTypeTables.includedLiteralFilenames = tm.filtersOfKind .literal := by
    rw [compileTypeTables, h.includedLiteralFilenames, List.nil_append]
  rw [htable, mem_filtersOfKind]
  rfl

theorem isSelected_lookup_iff (h : tm.Uncompiled) (hname : nul ∉ name) :
    (∃ f ∈ lookupFilters name, tm.IsSelected f) ↔
      (nameExtension name).any tm.compileTypeTables.includesExtension = true ∨
        name ∈ tm.compileTypeTables.includedLiteralFilenames.map (·.1) := by
  have hliteral : (∃ f ∈ (if filterKind name = .literal then [name] else []), tm.IsSelected f) ↔
      name ∈ tm.compileTypeTables.includedLiteralFilenames.map (·.1) := by
    rw [mem_includedLiteralFilenames_iff h]
    by_cases hkind : filterKind name = .literal
    · simp [hkind]
    · simp [hkind]
  rw [← hliteral]
  simp only [lookupFilters, List.mem_append, or_and_right, exists_or]
  refine or_congr_left ?_
  cases hext : nameExtension name with
  | none => simp
  | some ext =>
    obtain ⟨e, rfl, he⟩ := nameExtension_eq_some hext
    have hnul : nul ∉ dot :: e := by
      rw [List.mem_cons, not_or]
      exact ⟨by decide, fun hmem => hname (he hmem)⟩
    simp [includesExtension_iff h hnul]

theorem mem_lookupFilters {f : Bytes} (hf : f ∈ lookupFilters name) :
    nameExtension name = some f ∨ filterKind name = .literal ∧ name = f := by
  rcases List.mem_append.mp hf with hf | hf
  · exact Or.inl (Option.mem_toList.mp hf)
  · by_cases hkind : filterKind name = .literal
    · rw [if_pos hkind, List.mem_singleton] at hf
      exact Or.inr ⟨hkind, hf.symm⟩
    · simp [hkind] at hf

theorem filterKind_lookup {f : Bytes} (hf : f ∈ lookupFilters name) : filterKind f ≠ .glob := by
  rcases mem_lookupFilters hf with hext | ⟨hkind, rfl⟩
  · obtain ⟨e, rfl, -⟩ := nameExtension_eq_some hext
    rw [filterKind_dot]
    split_ifs <;> simp
  · simp [hkind]

theorem nul_not_mem_lookup (hname : nul ∉ name) {f : Bytes} (hf : f ∈ lookupFilters name) : nul ∉ f := by
  rcases mem_lookupFilters hf with hext | ⟨-, rfl⟩
  · obtain ⟨e, rfl, he⟩ := nameExtension_eq_some hext
    rw [List.mem_cons, not_or]
    exact ⟨by decide, fun hmem => hname (he hmem)⟩
  · exact hname

theorem inSearchTables_lookup_iff (h : tm.Uncompiled) (hname : nul ∉ name) {f : Bytes}
    (hf : f ∈ lookupFilters name) :
    tm.compileTypeTables.InSearchTables f ↔ tm.IsSelected f := by
  rw [inSearchTables_iff h (nul_not_mem_lookup hname hf), and_iff_right (filterKind_lookup hf)]
  rfl

theorem globVerdict_eq (tm : TypeManager) (fnmatch : Bytes → Bytes → Bool) (name : Bytes) :
    tm.globVerdict fnmatch name =
      (lastSuch (fun glob => fnmatch glob.1 name) tm.includeExcludeGlobs).map (·.2) := by
  rw [globVerdict]
  generalize tm.includeExcludeGlobs = globs
  induction globs using List.reverseRecOn with
  | nil => rfl
  | append_singleton globs glob ih =>
    rw [List.foldl_append, List.foldl_cons, List.foldl_nil, lastSuch_concat, ih]
    by_cases hmatch : fnmatch glob.1 name = true
    · rw [if_pos hmatch, if_pos hmatch, Option.map_some]
    · rw [if_neg hmatch, if_neg hmatch]

theorem globVerdict_eq_some_true_iff : tm.globVerdict fnmatch name = some true ↔
    ∃ glob, lastSuch (fun glob => fnmatch glob.1 name) tm.includeExcludeGlobs = some (glob, true) := by
  rw [globVerdict_eq, Option.map_eq_some_iff]
  constructor
  · rintro ⟨⟨glob, isInclude⟩, hlast, rfl⟩
    exact ⟨glob, hlast⟩
  · rintro ⟨glob, hlast⟩
    exact ⟨_, hlast, rfl⟩

theorem globVerdict_ne_some_true
    (hglob : ∀ glob, (glob, true) ∈ tm.includeExcludeGlobs → fnmatch glob name = false) :
    tm.globVerdict fnmatch name ≠ some true := by
  intro hverdict
  obtain ⟨glob, hlast⟩ := globVerdict_eq_some_true_iff.mp hverdict
  obtain ⟨hmem, hmatch⟩ := lastSuch_mem hlast
  simp [hglob glob hmem] at hmatch

/-- A name is decided by the exclude globs when a filter that it is looked up by is selected, and
by the last glob that matches it otherwise. -/
theorem fileShouldBeScanned_cases (h : tm.Uncompiled) (hname : nul ∉ name) :
    tm.compileTypeTables.fileShouldBeScanned fnmatch name = true ↔
      ((∃ f ∈ lookupFilters name, tm.IsSelected f) ∧ tm.isExcludedByAnyGlob fnmatch name = false) ∨
      (¬ (∃ f ∈ lookupFilters name, tm.IsSelected f) ∧ tm.globVerdict fnmatch name = some true) := by
  have hexclude : tm.compileTypeTables.isExcludedByAnyGlob fnmatch name =
      tm.isExcludedByAnyGlob fnmatch name := rfl
  have hverdict : tm.compileTypeTables.globVerdict fnmatch name = tm.globVerdict fnmatch name := rfl
  rw [fileShouldBeScanned, isSelected_lookup_iff h hname, hexclude, hverdict]
  by_cases hext : (nameExtension name).any tm.compileTypeTables.includesExtension = true
  · simp [hext]
  · by_cases hliteral : name ∈ tm.compileTypeTables.includedLiteralFilenames.map (·.1)
    · have hcontains := List.contains_iff_mem.mpr hliteral
      rw [if_neg hext, if_pos hcontains]
      simp [hliteral]
    · have hcontains := mt List.contains_iff_mem.mp hliteral
      rw [if_neg hext, if_neg hcontains]
      simp [hext, hliteral]

/-- Without a matching include glob a name is accepted exactly when a filter that it is looked
up by is selected and no exclude glob matches. -/
theorem fileShouldBeScanned_iff (h : tm.Uncompiled) (hname : nul ∉ name)
    (hglob : ∀ glob, (glob, true) ∈ tm.includeExcludeGlobs → fnmatch glob name = false) :
    tm.compileTypeTables.fileShouldBeScanned fnmatch name = true ↔
      (∃ f ∈ lookupFilters name, tm.IsSelected f) ∧ tm.isExcludedByAnyGlob fnmatch name = false := by
  rw [fileShouldBeScanned_cases h hname, or_iff_left]
  exact fun hverdict => globVerdict_ne_some_true hglob hverdict.2

end TypeManager

end Ucg
