import Ucg.TypeManager

/-! What `CompileTypeTables` puts into the tables, and what a lookup of a file name finds. -/

namespace Ucg

open ByteOrder

section Microstring

def packBytes (storage : Nat) (s : Bytes) : Nat :=
  s.foldl (fun storage (c : UInt8) => storage * 256 + c.toNat) storage

theorem packBytes_inj {a b : Bytes} {m n : Nat} (hlen : a.length = b.length)
    (h : packBytes m a = packBytes n b) : m = n ∧ a = b := by
  induction a generalizing b m n with
  | nil =>
    obtain rfl := List.length_eq_zero_iff.mp hlen.symm
    exact ⟨h, rfl⟩
  | cons x xs ih =>
    cases b with
    | nil => simp at hlen
    | cons y ys =>
      obtain ⟨hsum, rfl⟩ := ih (Nat.succ.inj hlen) h
      have hstorage : m * 256 + x.toNat = n * 256 + y.toNat := hsum
      have hx := x.toNat_lt
      have hy := y.toNat_lt
      have hxy : x.toNat = y.toNat := by omega
      exact ⟨by omega, by rw [UInt8.toNat_inj.mp hxy]⟩

theorem takeWhile_padded {a : Bytes} (ha : nul ∉ a) (n : Nat) :
    (a ++ List.replicate n 0).takeWhile (· ≠ nul) = a := by
  rw [List.takeWhile_append_of_pos (by simpa using fun c hc (h : c = nul) => ha (h ▸ hc))]
  cases n with
  | zero => simp
  | succ n => simp [List.replicate_succ, nul]

theorem microstring_inj {a b : Bytes} (ha : nul ∉ a) (hb : nul ∉ b) (hla : a.length ≤ 8)
    (hlb : b.length ≤ 8) (h : microstring a = microstring b) : a = b := by
  have hlen : (a ++ List.replicate (8 - a.length) 0).length =
      (b ++ List.replicate (8 - b.length) 0).length := by
    simp only [List.length_append, List.length_replicate]
    omega
  have hpadded := (packBytes_inj hlen h).2
  rw [← takeWhile_padded ha (8 - a.length), hpadded, takeWhile_padded hb]

end Microstring

namespace TypeManager

variable {tm : TypeManager} {f : Bytes}

def IsActiveFilter (tm : TypeManager) (f : Bytes) : Prop :=
  ∃ t filters, tm.activeTypeMap.find? t = some filters ∧ f ∈ filters

def IsRemovedFilter (tm : TypeManager) (f : Bytes) : Prop :=
  f ∈ tm.removedTypeFilters.map (·.1)

instance : Decidable (tm.IsRemovedFilter f) :=
  inferInstanceAs (Decidable (f ∈ tm.removedTypeFilters.map (·.1)))

/-- No table entry for `f` but what `CompileTypeTables` makes of it. -/
def InSearchTables (tm : TypeManager) (f : Bytes) : Prop :=
  (filterKind f = .microstring ∧ microstring f.tail ∈ tm.fastIncludeExtensions) ∨
    f ∈ tm.includeExtensions.map (·.1) ∨ f ∈ tm.includedLiteralFilenames.map (·.1) ∨
      f ∈ tm.includedFirstLineRegexes.map (·.1)

instance : Decidable (tm.InSearchTables f) :=
  inferInstanceAs (Decidable ((filterKind f = .microstring ∧
    microstring f.tail ∈ tm.fastIncludeExtensions) ∨ f ∈ tm.includeExtensions.map (·.1) ∨
      f ∈ tm.includedLiteralFilenames.map (·.1) ∨ f ∈ tm.includedFirstLineRegexes.map (·.1)))

/-- The tables before `CompileTypeTables`, and filters from C strings. -/
structure Uncompiled (tm : TypeManager) : Prop where
  includeExtensions : tm.includeExtensions = []
  includedLiteralFilenames : tm.includedLiteralFilenames = []
  includedFirstLineRegexes : tm.includedFirstLineRegexes = []
  definedNulFree : tm.builtinAndUserTypeMap.AllFilters (nul ∉ ·)
  activeNulFree : tm.activeTypeMap.AllFilters (nul ∉ ·)

theorem mem_compiledFilters {t : Bytes} : (f, t) ∈ tm.compiledFilters ↔
    (∃ filters, tm.activeTypeMap.find? t = some filters ∧ f ∈ filters) ∧
      ¬ tm.IsRemovedFilter f := by
  simp only [compiledFilters, IsRemovedFilter, List.mem_flatMap, List.mem_map, List.mem_filter,
    decide_eq_true_eq, Prod.mk.injEq, ← SortedMap.mem_entries_iff]
  constructor
  · rintro ⟨⟨t', filters⟩, hentry, f', ⟨hmem, hremoved⟩, rfl, rfl⟩
    exact ⟨⟨filters, hentry, hmem⟩, hremoved⟩
  · rintro ⟨⟨filters, hentry, hmem⟩, hremoved⟩
    exact ⟨(t, filters), hentry, f, ⟨hmem, hremoved⟩, rfl, rfl⟩

theorem mem_filtersOfKind {kind : FilterKind} : f ∈ (tm.filtersOfKind kind).map (·.1) ↔
    filterKind f = kind ∧ tm.IsActiveFilter f ∧ ¬ tm.IsRemovedFilter f := by
  simp only [filtersOfKind, List.mem_map, List.mem_filter, decide_eq_true_eq]
  constructor
  · rintro ⟨⟨f', t⟩, ⟨hmem, hkind⟩, rfl⟩
    obtain ⟨⟨filters, hactive, hf⟩, hremoved⟩ := mem_compiledFilters.mp hmem
    exact ⟨hkind, ⟨t, filters, hactive, hf⟩, hremoved⟩
  · rintro ⟨hkind, ⟨t, filters, hactive, hf⟩, hremoved⟩
    exact ⟨(f, t), ⟨mem_compiledFilters.mpr ⟨⟨filters, hactive, hf⟩, hremoved⟩, hkind⟩, rfl⟩

theorem mem_keys_foldl_insert {specs : List (Bytes × Bytes)} {s : SortedMap Nat Unit} {x : Nat} :
    x ∈ (specs.foldl (fun s j => s.insert (microstring j.1.tail) ()) s).entries.map (·.1) ↔
      x ∈ s.entries.map (·.1) ∨ ∃ j ∈ specs, microstring j.1.tail = x := by
  induction specs generalizing s with
  | nil => simp
  | cons j rest ih =>
    rw [List.foldl_cons, ih, SortedMap.mem_keys_iff, SortedMap.mem_keys_iff]
    by_cases hx : x = microstring j.1.tail
    · simp [SortedMap.find?_insert, hx]
    · simp [SortedMap.find?_insert, hx, Ne.symm hx]

theorem mem_fastIncludeExtensions {x : Nat} :
    x ∈ tm.compileTypeTables.fastIncludeExtensions ↔
      ∃ f, microstring f.tail = x ∧ filterKind f = .microstring ∧ tm.IsActiveFilter f ∧
        ¬ tm.IsRemovedFilter f := by
  change x ∈ tm.uniqueMicrostringExtensions.entries.map (·.1) ↔ _
  rw [uniqueMicrostringExtensions, mem_keys_foldl_insert]
  simp only [← mem_filtersOfKind, List.mem_map]
  constructor
  · rintro (h | ⟨j, hj, rfl⟩)
    · simp [SortedMap.empty] at h
    · exact ⟨j.1, rfl, j, hj, rfl⟩
  · rintro ⟨f, rfl, j, hj, rfl⟩
    exact Or.inr ⟨j, hj, rfl⟩

theorem filterKind_microstring (h : filterKind f = .microstring) :
    ∃ ext, f = dot :: ext ∧ ext.length ≤ 8 := by
  by_cases hdot : f.head? = some dot
  · by_cases hlen : f.length ≤ microstringMaxSize + 1
    · cases f with
      | nil => simp at hdot
      | cons c ext => exact ⟨ext, by simpa using hdot, Nat.le_of_succ_le_succ hlen⟩
    · simp [filterKind, hdot, hlen] at h
  · rw [filterKind, if_neg hdot] at h
    split_ifs at h

theorem microstring_mem_fastIncludeExtensions (h : tm.Uncompiled) (hf : nul ∉ f)
    (hkind : filterKind f = .microstring) :
    microstring f.tail ∈ tm.compileTypeTables.fastIncludeExtensions ↔
      tm.IsActiveFilter f ∧ ¬ tm.IsRemovedFilter f := by
  rw [mem_fastIncludeExtensions]
  constructor
  · rintro ⟨f', hmicro, hkind', hactive, hremoved⟩
    obtain ⟨ext, rfl, hlen⟩ := filterKind_microstring hkind
    obtain ⟨ext', rfl, hlen'⟩ := filterKind_microstring hkind'
    obtain ⟨t, filters, hfind, hmem⟩ := hactive
    have hnul := h.activeNulFree t filters hfind _ hmem
    have hext : ext' = ext := microstring_inj (fun hc => hnul (List.mem_cons_of_mem _ hc))
      (fun hc => hf (List.mem_cons_of_mem _ hc)) hlen' hlen hmicro
    subst hext
    exact ⟨⟨t, filters, hfind, hmem⟩, hremoved⟩
  · rintro ⟨hactive, hremoved⟩
    exact ⟨f, rfl, hkind, hactive, hremoved⟩

/-- The tables hold the active filters that are not removed, except those taken for globs. -/
theorem inSearchTables_iff (h : tm.Uncompiled) (hf : nul ∉ f) :
    tm.compileTypeTables.InSearchTables f ↔
      filterKind f ≠ .glob ∧ tm.IsActiveFilter f ∧ ¬ tm.IsRemovedFilter f := by
  have htables : tm.compileTypeTables.InSearchTables f ↔
      (filterKind f = .microstring ∧
        microstring f.tail ∈ tm.compileTypeTables.fastIncludeExtensions) ∨
      f ∈ (tm.filtersOfKind .extension).map (·.1) ∨ f ∈ (tm.filtersOfKind .literal).map (·.1) ∨
        f ∈ (tm.filtersOfKind .firstLineRegex).map (·.1) := by
    simp only [InSearchTables, compileTypeTables, h.includeExtensions,
      h.includedLiteralFilenames, h.includedFirstLineRegexes, List.nil_append]
  simp only [htables, mem_filtersOfKind]
  cases hkind : filterKind f with
  | microstring => simp [microstring_mem_fastIncludeExtensions h hf hkind]
  | extension => simp
  | firstLineRegex => simp
  | glob => simp
  | literal => simp

end TypeManager

end Ucg
