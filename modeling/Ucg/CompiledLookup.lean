import Ucg.FilterMeaning
import Ucg.Lib.BinarySearch

/-! The lookup of a file name with the bytes of a `microstring` in memory, its constructor that may
throw, and the bisection: no name makes it throw, and it answers as the definitions do. -/

namespace Ucg

open ByteOrder

structure LengthError where
  what : Bytes
  deriving DecidableEq, Repr

section Microstring

def bytesOf : Nat → Nat → Bytes
  | 0, _ => []
  | count + 1, x => UInt8.ofNat x :: bytesOf count (x / 256)

/-- The `uint64_t` that is in memory as these bytes. -/
def storageOf (littleEndian : Bool) (bytes : Bytes) : Nat :=
  if littleEndian then bytes.foldr (fun c storage => c.toNat + 256 * storage) 0
  else packBytes 0 bytes

def bswap (x : Nat) : Nat := packBytes 0 (bytesOf 8 x)

def hostToBe (littleEndian : Bool) (x : Nat) : Nat := if littleEndian then bswap x else x

/-- The loop that copies the bytes over those of the storage. -/
def copyBytes : Bytes → Bytes → Bytes
  | _ :: storage, c :: s => c :: copyBytes storage s
  | storage, _ => storage

/-- The constructor `basic_microstring`, which throws when there are more than eight bytes. -/
def newMicrostring (littleEndian : Bool) (s : Bytes) : Except LengthError Nat :=
  if microstringMaxSize < s.length then .error ⟨str "Length too long for a microstring"⟩
  else .ok (hostToBe littleEndian (storageOf littleEndian (copyBytes (List.replicate 8 0) s)))

theorem bytesOf_storageOf (bytes : Bytes) : bytesOf bytes.length (storageOf true bytes) = bytes := by
  induction bytes with
  | nil => rfl
  | cons c rest ih =>
    have hc := c.toNat_lt
    have hstorage : storageOf true (c :: rest) = c.toNat + 256 * storageOf true rest := rfl
    have hdiv : (c.toNat + 256 * storageOf true rest) / 256 = storageOf true rest := by omega
    have hbyte : UInt8.ofNat (c.toNat + 256 * storageOf true rest) = c := by
      apply UInt8.toNat_inj.mp
      rw [UInt8.toNat_ofNat']
      omega
    rw [List.length_cons, bytesOf, hstorage, hdiv, hbyte, ih]

theorem copyBytes_replicate {n : Nat} {s : Bytes} (h : s.length ≤ n) :
    copyBytes (List.replicate n 0) s = s ++ List.replicate (n - s.length) 0 := by
  induction s generalizing n with
  | nil => cases n <;> rfl
  | cons c s ih =>
    cases n with
    | zero => simp at h
    | succ n =>
      rw [List.replicate_succ, copyBytes, ih (Nat.le_of_succ_le_succ h), List.length_cons,
        Nat.add_sub_add_right, List.cons_append]

/-- The constructor throws exactly when the text is too long; the first byte is in the most
significant place whatever the byte order of the host. -/
theorem newMicrostring_eq (littleEndian : Bool) (s : Bytes) : newMicrostring littleEndian s =
    if s.length ≤ microstringMaxSize then .ok (microstring s)
    else .error ⟨str "Length too long for a microstring"⟩ := by
  rw [newMicrostring]
  by_cases hlen : s.length ≤ microstringMaxSize
  · have h8 : s.length ≤ 8 := hlen
    rw [if_neg (Nat.not_lt.mpr hlen), if_pos hlen, copyBytes_replicate h8]
    cases littleEndian with
    | false => rfl
    | true =>
      have hsize : (s ++ List.replicate (8 - s.length) 0).length = 8 := by
        rw [List.length_append, List.length_replicate]
        omega
      have hbytes := bytesOf_storageOf (s ++ List.replicate (8 - s.length) 0)
      rw [hsize] at hbytes
      rw [hostToBe, if_pos rfl, bswap, hbytes]
      rfl
  · rw [if_pos (Nat.lt_of_not_le hlen), if_neg hlen]

theorem newMicrostring_of_le {s : Bytes} (littleEndian : Bool) (h : s.length ≤ microstringMaxSize) :
    newMicrostring littleEndian s = .ok (microstring s) := by
  rw [newMicrostring_eq, if_pos h]

end Microstring

namespace TypeManager

section Definitions

variable (littleEndian : Bool) (tm : TypeManager)

/-- `CompileTypeTables` with the set of the microstrings, and the vector that is sorted. -/
def compileTypeTablesThrowing : Except LengthError TypeManager := do
  let uniqueMicrostringExtensions ← (tm.filtersOfKind .microstring).foldlM
    (fun s j => return s.insert (← newMicrostring littleEndian j.1.tail) ()) SortedMap.empty
  return { tm.compileTypeTables with
    fastIncludeExtensions := (uniqueMicrostringExtensions.entries.map (·.1)).mergeSort }

def includeIt (extPlusPeriod : Bytes) : Except LengthError Bool :=
  if extPlusPeriod.length ≤ microstringMaxSize + 1 then do
    return BinarySearch.binarySearch tm.fastIncludeExtensions
      (← newMicrostring littleEndian extPlusPeriod.tail)
  else .ok ((tm.includeExtensions.map (·.1)).contains extPlusPeriod)

/-- `FileShouldBeScanned`, which is `noexcept`: an error ends the program. -/
def fileShouldBeScannedNoexcept (fnmatch : Bytes → Bytes → Bool) (name : Bytes) :
    Except LengthError Bool := do
  if ← ((nameExtension name).map (tm.includeIt littleEndian)).getD (.ok false) then
    return !tm.isExcludedByAnyGlob fnmatch name
  else if (tm.includedLiteralFilenames.map (·.1)).contains name then
    return !tm.isExcludedByAnyGlob fnmatch name
  else return tm.globVerdict fnmatch name == some true

end Definitions

variable {tm : TypeManager} {n : Bytes} {fnmatch : Bytes → Bytes → Bool}

theorem foldlM_newMicrostring (littleEndian : Bool) {specs : List (Bytes × Bytes)}
    (h : ∀ j ∈ specs, filterKind j.1 = .microstring) (s : SortedMap Nat Unit) :
    specs.foldlM (fun s j => return s.insert (← newMicrostring littleEndian j.1.tail) ()) s =
      (.ok (specs.foldl (fun s j => s.insert (microstring j.1.tail) ()) s) :
        Except LengthError _) := by
  induction specs generalizing s with
  | nil => rfl
  | cons j specs ih =>
    obtain ⟨ext, hext, hlen⟩ := filterKind_microstring (h j List.mem_cons_self)
    have htail : j.1.tail.length ≤ microstringMaxSize := by rw [hext]; exact hlen
    rw [List.foldlM_cons, newMicrostring_of_le littleEndian htail, List.foldl_cons]
    exact ih (fun j' hj' => h j' (List.mem_cons_of_mem _ hj')) _

theorem pairwise_fastIncludeExtensions (tm : TypeManager) :
    tm.compileTypeTables.fastIncludeExtensions.Pairwise (· ≤ ·) :=
  List.pairwise_map.mpr (tm.uniqueMicrostringExtensions.sorted.imp Nat.le_of_lt)

theorem compileTypeTablesThrowing_eq (littleEndian : Bool) (tm : TypeManager) :
    tm.compileTypeTablesThrowing littleEndian = .ok tm.compileTypeTables := by
  have hkinds : ∀ j ∈ tm.filtersOfKind .microstring, filterKind j.1 = .microstring := fun j hj =>
    of_decide_eq_true (List.mem_filter.mp hj).2
  have hsorted : tm.compileTypeTables.fastIncludeExtensions.mergeSort =
      tm.compileTypeTables.fastIncludeExtensions :=
    List.mergeSort_of_pairwise ((pairwise_fastIncludeExtensions tm).imp decide_eq_true)
  rw [compileTypeTablesThrowing, foldlM_newMicrostring littleEndian hkinds]
  change Except.ok { tm.compileTypeTables with
    fastIncludeExtensions := tm.compileTypeTables.fastIncludeExtensions.mergeSort } = _
  rw [hsorted]

theorem includeIt_eq (littleEndian : Bool) {ext : Bytes}
    (hsorted : tm.fastIncludeExtensions.Pairwise (· ≤ ·)) :
    tm.includeIt littleEndian ext = .ok (tm.includesExtension ext) := by
  rw [includeIt, includesExtension]
  by_cases hlen : ext.length ≤ microstringMaxSize + 1
  · have htail : ext.tail.length ≤ microstringMaxSize := by
      rw [List.length_tail]
      omega
    have hfound : BinarySearch.binarySearch tm.fastIncludeExtensions (microstring ext.tail) =
        tm.fastIncludeExtensions.contains (microstring ext.tail) := by
      rw [Bool.eq_iff_iff, BinarySearch.binarySearch_iff_mem hsorted, List.contains_iff_mem]
    rw [if_pos hlen, if_pos hlen, newMicrostring_of_le littleEndian htail, ← hfound]
    rfl
  · rw [if_neg hlen, if_neg hlen]

theorem fileShouldBeScannedNoexcept_eq (littleEndian : Bool)
    (hsorted : tm.fastIncludeExtensions.Pairwise (· ≤ ·)) :
    tm.fileShouldBeScannedNoexcept littleEndian fnmatch n =
      .ok (tm.fileShouldBeScanned fnmatch n) := by
  have hext : ((nameExtension n).map (tm.includeIt littleEndian)).getD (.ok false) =
      .ok ((nameExtension n).any tm.includesExtension) := by
    cases nameExtension n with
    | none => rfl
    | some ext => exact includeIt_eq littleEndian hsorted
  rw [fileShouldBeScannedNoexcept, hext, fileShouldBeScanned]
  change (if (nameExtension n).any tm.includesExtension = true then _ else _) = _
  split_ifs <;> rfl

/-- A selected filter is the extension of the name from its last period, which is not its first
byte, or it is the name itself and neither an extension, nor an expression, nor a glob. -/
def IsHit (tm : TypeManager) (n : Bytes) : Prop :=
  (∃ s e, n = s ++ dot :: e ∧ s ≠ [] ∧ dot ∉ e ∧ tm.IsSelected (dot :: e)) ∨
    tm.IsSelected n ∧ n.head? ≠ some dot ∧ n.head? ≠ some slash ∧ n.head? ≠ some 63

theorem isHit_iff : tm.IsHit n ↔ ∃ f ∈ lookupFilters n, tm.IsSelected f := by
  simp only [mem_lookupFilters_iff, ← filterKind_eq_literal_iff_head, IsHit]
  constructor
  · rintro (⟨s, e, rfl, hs, he, hselected⟩ | ⟨hselected, hkind⟩)
    · exact ⟨dot :: e, Or.inl (nameExtension_eq_some_iff.mpr ⟨he, s, hs, rfl⟩), hselected⟩
    · exact ⟨n, Or.inr ⟨hkind, rfl⟩, hselected⟩
  · rintro ⟨f, hext | ⟨hkind, rfl⟩, hselected⟩
    · obtain ⟨e, rfl, -⟩ := nameExtension_eq_some hext
      obtain ⟨he, s, hs, rfl⟩ := nameExtension_eq_some_iff.mp hext
      exact Or.inl ⟨s, e, rfl, hs, he, hselected⟩
    · exact Or.inr ⟨hselected, hkind⟩

/-- The answer is that of the exclude globs where a selected filter hits the name, and that of the
last glob that matches it elsewhere. -/
def AnswersAsDefined (tm : TypeManager) (fnmatch : Bytes → Bytes → Bool) (n : Bytes)
    (scanned : Bool) : Prop :=
  (tm.IsHit n → (scanned = true ↔ ∀ glob ∈ tm.excludeGlobs, fnmatch glob n = false)) ∧
  (¬ tm.IsHit n → (scanned = true ↔ ∃ glob,
    lastSuch (fun glob => fnmatch glob.1 n) tm.includeExcludeGlobs = some (glob, true)))

theorem answersAsDefined_fileShouldBeScanned (h : tm.Uncompiled) (hn : nul ∉ n) :
    tm.AnswersAsDefined fnmatch n (tm.compileTypeTables.fileShouldBeScanned fnmatch n) := by
  rw [AnswersAsDefined, fileShouldBeScanned_cases h hn, ← isHit_iff, globVerdict_eq_some_true_iff,
    isExcludedByAnyGlob, List.any_eq_false]
  simp only [Bool.not_eq_true]
  tauto

/-- After any operations the compiled tables answer for every name, without an exception, as the
definitions do. -/
theorem compiledLookup_iff {ops : List TypeOp} (h : TypeRun ops tm) (hn : nul ∉ n)
    (littleEndian : Bool) (fnmatch : Bytes → Bytes → Bool) :
    ∃ compiled, tm.compileTypeTablesThrowing littleEndian = .ok compiled ∧
      ∃ scanned, compiled.fileShouldBeScannedNoexcept littleEndian fnmatch n = .ok scanned ∧
        tm.AnswersAsDefined fnmatch n scanned :=
  ⟨_, compileTypeTablesThrowing_eq littleEndian tm, _,
    fileShouldBeScannedNoexcept_eq littleEndian (pairwise_fastIncludeExtensions tm),
    answersAsDefined_fileShouldBeScanned h.invariant.1 hn⟩

/-- The type `cc` is selected, `.h` is removed, `*.q` included, `*s` excluded, and `cc` is given an
extension that is too long for a microstring. -/
def longExtension : TypeManager :=
  let tm := (TypeManager.new.type (str "cc")).2
  let tm := ((tm.typeAddExt ignoreFileTypeName (str "h")).notype ignoreFileTypeName).2
  let tm := ((tm.typeAddGlobInclude (str "INCLUDE_GLOB_FILE_TYPE") (str "*.q")).type
    includeGlobFileTypeName).2
  (tm.typeAddGlobExclude (str "*s")).typeAddExt (str "cc") (str "verylong")

theorem typeRun_longExtension : TypeRun [.type (str "cc"), .ignoreFile ⟨str "ext:h", by decide⟩,
    .includeGlob ⟨str "glob:*.q", by decide⟩, .add false ⟨str "cc:globx:*s", by decide⟩,
    .add false ⟨str "cc:ext:verylong", by decide⟩] longExtension := by
  have hselected := typeRun_nil.tail (e := .type (str "cc")) rfl
  have hremoved := hselected.tail (e := .ignoreFile ⟨str "ext:h", by decide⟩) rfl
  have hincluded := hremoved.tail (e := .includeGlob ⟨str "glob:*.q", by decide⟩) rfl
  have hexcluded := hincluded.tail (e := .add false ⟨str "cc:globx:*s", by decide⟩) rfl
  exact hexcluded.tail (e := .add false ⟨str "cc:ext:verylong", by decide⟩) rfl

theorem longExtension_maps :
    longExtension.activeTypeMap.find? (str "cc") = some [str ".c", str ".h", str ".xs", str ".verylong"] ∧
      longExtension.removedTypeFilters.map (·.1) = [str ".h"] ∧ longExtension.excludeGlobs = [str "*s"] := by
  decide +kernel

theorem isSelected_longExtension {e : Bytes} (he : dot :: e = str ".xs" ∨ dot :: e = str ".verylong") :
    longExtension.IsSelected (dot :: e) := by
  obtain ⟨hfind, hremoved, -⟩ := longExtension_maps
  refine ⟨⟨_, _, hfind, ?_⟩, ?_⟩
  · rcases he with he | he <;> simp [he]
  · rw [IsRemovedFilter, hremoved]
    rcases he with he | he <;> rw [he] <;> decide

theorem compiledLookup_iff_longExtension : ∃ compiled,
    longExtension.compileTypeTablesThrowing true = .ok compiled ∧ ¬ longExtension.IsSelected (str ".h") ∧
      compiled.fileShouldBeScannedNoexcept true fnmatchStar (str "a.verylong") = .ok true ∧
      compiled.fileShouldBeScannedNoexcept true fnmatchStar (str "a.xs") = .ok false := by
  obtain ⟨-, hremoved, hglobs⟩ := longExtension_maps
  obtain ⟨compiled, hcompiled, long, hlong, hlongDefined⟩ :=
    compiledLookup_iff (n := str "a.verylong") typeRun_longExtension (by decide) true fnmatchStar
  obtain ⟨compiled', hcompiled', short, hshort, hshortDefined⟩ :=
    compiledLookup_iff (n := str "a.xs") typeRun_longExtension (by decide) true fnmatchStar
  obtain rfl := Except.ok.inj (hcompiled.symm.trans hcompiled')
  have hlongHit : longExtension.IsHit (str "a.verylong") :=
    Or.inl ⟨str "a", str "verylong", by decide, by decide, by decide, isSelected_longExtension (Or.inr rfl)⟩
  have hshortHit : longExtension.IsHit (str "a.xs") :=
    Or.inl ⟨str "a", str "xs", by decide, by decide, by decide, isSelected_longExtension (Or.inl rfl)⟩
  have hscanned : long = true := (hlongDefined.1 hlongHit).mpr (by rw [hglobs]; decide)
  have hexcluded : short = false := by
    rw [← Bool.not_eq_true, hshortDefined.1 hshortHit, hglobs]
    decide
  have hh : longExtension.IsRemovedFilter (str ".h") := by
    rw [IsRemovedFilter, hremoved]
    exact List.mem_singleton_self _
  refine ⟨compiled, hcompiled, fun hselected => hselected.2 hh, ?_, ?_⟩
  · rw [hlong, hscanned]
  · rw [hshort, hexcluded]

end TypeManager

end Ucg
