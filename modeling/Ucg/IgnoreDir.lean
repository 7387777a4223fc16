import Ucg.LastOption

/-! `DirInclusionManager`, and which directories the `--[no]ignore-dir` options exclude. -/

namespace Ucg

open ByteOrder

section DirInclusionManager

def builtinDirExcludes : List String :=
  [".bzr", ".git", ".hg", ".metadata", ".svn", "CMakeFiles", "CVS", "autom4te.cache", ".deps", ""]

structure DirInclusionManager where
  excludedLiteralDirs : SortedMap Bytes Unit := SortedMap.empty

namespace DirInclusionManager

def insertAll (names : List Bytes) (dirs : SortedMap Bytes Unit) : SortedMap Bytes Unit :=
  names.foldl (fun dirs name => dirs.insert name ()) dirs

def addExclusions (dim : DirInclusionManager) (exclusions : SortedMap Bytes Unit) :
    DirInclusionManager :=
  ⟨insertAll (exclusions.entries.map (·.1)) dim.excludedLiteralDirs⟩

/-- The names up to the empty one that ends the array. -/
def compileExclusionTables (dim : DirInclusionManager) : DirInclusionManager :=
  ⟨insertAll ((builtinDirExcludes.map str).takeWhile (· ≠ [])) dim.excludedLiteralDirs⟩

def dirShouldBeExcluded (dim : DirInclusionManager) (name : Bytes) : Bool :=
  (dim.excludedLiteralDirs.find? name).isSome

end DirInclusionManager

end DirInclusionManager

open DirInclusionManager

variable {opts : List (ParsedOption OptIndex)} {d : Bytes}

def IsBuiltinDirExclude (d : Bytes) : Prop := d ∈ (builtinDirExcludes.map str).takeWhile (· ≠ [])

instance : Decidable (IsBuiltinDirExclude d) :=
  inferInstanceAs (Decidable (d ∈ (builtinDirExcludes.map str).takeWhile (· ≠ [])))

theorem isSome_find?_insertAll (names : List Bytes) (dirs : SortedMap Bytes Unit) (d : Bytes) :
    ((insertAll names dirs).find? d).isSome = true ↔ d ∈ names ∨ (dirs.find? d).isSome = true := by
  induction names generalizing dirs with
  | nil => simp [insertAll]
  | cons name rest ih =>
    rw [insertAll, List.foldl_cons]
    refine (ih _).trans ?_
    rw [SortedMap.find?_insert]
    by_cases hd : d = name
    · simp [hd]
    · simp [hd]

/-- The manager that `main` sets up from the parsed options. -/
def dirInclusionManager (ap : ArgParse) : DirInclusionManager :=
  (({} : DirInclusionManager).addExclusions ap.excludes).compileExclusionTables

theorem dirShouldBeExcluded_iff (ap : ArgParse) (d : Bytes) :
    (dirInclusionManager ap).dirShouldBeExcluded d = true ↔
      IsBuiltinDirExclude d ∨ (ap.excludes.find? d).isSome = true := by
  rw [dirInclusionManager, dirShouldBeExcluded, compileExclusionTables, isSome_find?_insertAll,
    addExclusions, isSome_find?_insertAll, SortedMap.mem_keys_iff, ← Option.isSome_iff_exists]
  simp [IsBuiltinDirExclude]

/-- The last option that names `d`. -/
def lastMention (opts : List (ParsedOption OptIndex)) (d : Bytes) :
    Option (ParsedOption OptIndex) :=
  lastSuch (fun o => o.index = .ignoreDir ∧ o.arg = some d) opts

/-- The last mention decides, else the built-in list. -/
def ExcludedByLastMention (opts : List (ParsedOption OptIndex)) (d : Bytes) : Prop :=
  match lastMention opts d with
  | some o => o.type = enable
  | none => IsBuiltinDirExclude d

theorem exists_arg_of_nonEmpty {arg : Option Bytes} (h : Arg.NonEmpty arg = .ok) :
    ∃ a, arg = some a := by
  cases arg with
  | none => simp [Arg.NonEmpty] at h
  | some a => exact ⟨a, rfl⟩

/-- The loop of `Parse` over the options leaves a name in the set exactly when the last of them
that names it is `--ignore-dir`. -/
theorem find?_excludes (harg : ∀ o ∈ opts, o.index = .ignoreDir → ∃ a, o.arg = some a) (d : Bytes) :
    (((optionChain opts .ignoreDir).foldl ignoreDirStep SortedMap.empty).find? d).isSome = true ↔
      ∃ o, lastMention opts d = some o ∧ o.type = enable := by
  have hfold := foldl_eq_of_lastSuch (fun o : ParsedOption OptIndex => o.arg.getD [] = d)
    ignoreDirStep (fun _ => True) (fun dirs => (dirs.find? d).isSome = true)
    (fun o => o.type = enable) (fun _ _ h => h)
    (fun dirs o _ ho => by
      have ho := of_decide_eq_true ho
      by_cases henable : o.type = enable
      · simp [ignoreDirStep, henable, ho, SortedMap.find?_insert]
      · simp [ignoreDirStep, henable, ho, SortedMap.find?_erase])
    (fun dirs o _ ho => by
      have hne : ¬ d = o.arg.getD [] := fun h => by simp [h] at ho
      by_cases henable : o.type = enable
      · simp [ignoreDirStep, henable, SortedMap.find?_insert, hne]
      · simp [ignoreDirStep, henable, SortedMap.find?_erase, hne])
    (optionChain opts .ignoreDir) (s := SortedMap.empty) trivial
  have hmention : lastSuch (fun o : ParsedOption OptIndex => o.arg.getD [] = d)
      (optionChain opts .ignoreDir) = lastMention opts d := by
    rw [optionChain, lastSuch_filter, lastMention, lastSuch, lastSuch]
    refine congrArg _ (List.filter_congr fun o ho => ?_)
    by_cases hindex : o.index = .ignoreDir
    · obtain ⟨a, ha⟩ := harg o ho hindex
      simp [hindex, ha]
    · simp [hindex]
  rw [hfold.1, hmention]
  cases lastMention opts d with
  | none => simp
  | some o => simp

theorem excludes_parseDefaults (env : ParseEnv) (ap : ArgParse) :
    (parseDefaults env ap).excludes = ap.excludes := by
  simp only [parseDefaults, apply_ite ArgParse.excludes, ite_self]

theorem excludes_parseSwitches (env : ParseEnv) (opts : List (ParsedOption OptIndex))
    (ap : ArgParse) : (parseSwitches env opts ap).excludes =
      (optionChain opts .ignoreDir).foldl ignoreDirStep ap.excludes := by
  obtain ⟨ignoring, smart, hcase⟩ := foldl_handleCaseStep (optionChain opts .handleCase)
    { ap with useMmap := lastType opts .testUseMmap = enable }
  simp only [parseSwitches, hcase, apply_ite ArgParse.excludes, ite_self]

/-- The last mention of a directory decides, unless it is a `--noignore-dir` of a directory
that is excluded by default. -/
theorem dirShouldBeExcluded_parse_iff {env : ParseEnv} {tm tm' : TypeManager}
    {userArgv projectArgv argv words : List Bytes} {nonOptions : List Bytes} {ap : ArgParse}
    (hwords : combinedWords tm userArgv projectArgv argv = some words)
    (haccepted : parseArgs dynamicUsage words = some (opts, nonOptions))
    (hparse : parse env tm userArgv projectArgv argv = .ok (ap, tm')) (d : Bytes) :
    ((dirInclusionManager ap).dirShouldBeExcluded d = true ↔ ExcludedByLastMention opts d) ↔
      ¬ (IsBuiltinDirExclude d ∧ ∃ o, lastMention opts d = some o ∧ o.type ≠ enable) := by
  obtain ⟨tm₁, hoptions⟩ := exists_parseOptions hwords haccepted hparse
  obtain ⟨pattern, paths, dirjobs, jobs, -, -, -, -, rfl⟩ := parseOptions_eq_ok hoptions
  have harg : ∀ o ∈ opts, o.index = .ignoreDir → ∃ a, o.arg = some a := fun o ho hindex =>
    exists_arg_of_nonEmpty
      (checkArg_of_parseArgs (checkArg_of_index rfl) nonEmpty_ne_none haccepted ho hindex)
  rw [dirShouldBeExcluded_iff, excludes_parseDefaults]
  dsimp only
  rw [excludes_parseSwitches, find?_excludes harg, ExcludedByLastMention]
  cases hlast : lastMention opts d with
  | none => simp
  | some o =>
    by_cases henable : o.type = enable
    · simp [henable]
    · simp [henable]

/-- The witness: the rc file says `--ignore-dir=a`, the command line
`--no-ignore-directory a`. -/
theorem dirShouldBeExcluded_parse_a : ∃ ap tm',
    parse ⟨true, 8⟩ TypeManager.new [str "--ignore-dir=a"] []
      [str "ucg", str "--no-ignore-directory", str "a", str "x"] = .ok (ap, tm') ∧
    ((dirInclusionManager ap).dirShouldBeExcluded (str "a") = true ↔
      ExcludedByLastMention [⟨.ignoreDir, enable, some (str "a")⟩,
        ⟨.ignoreDir, disable, some (str "a")⟩] (str "a")) := by
  have haccepted : parseArgs dynamicUsage
      [str "--ignore-dir=a", str "--no-ignore-directory", str "a", str "x"] =
        some ([⟨.ignoreDir, enable, some (str "a")⟩, ⟨.ignoreDir, disable, some (str "a")⟩],
          [str "x"]) := by decide
  have hskip : ∀ w ∈ [str "ucg", str "--ignore-dir=a", str "--no-ignore-directory", str "a",
      str "x"], wordAction TypeManager.new w = .skip := by
    have hignore := wordAction_new_eq_skip (str "ignore-dir=a") (by decide) (by decide)
    have hno := wordAction_new_eq_skip (str "no-ignore-directory") (by decide) (by decide)
    simpa using ⟨rfl, hignore, hno, rfl, rfl⟩
  have hcombine : combineArgv [str "--ignore-dir=a"] []
      [str "ucg", str "--no-ignore-directory", str "a", str "x"] =
        [str "ucg", str "--ignore-dir=a", str "--no-ignore-directory", str "a", str "x"] := by
    decide
  obtain ⟨hwords, hoptions⟩ := parse_of_skip hcombine hskip haccepted
  refine ⟨_, _, hoptions, ?_⟩
  exact (dirShouldBeExcluded_parse_iff hwords haccepted hoptions (str "a")).mpr fun h =>
    absurd h.1 (by decide)

/-- `--noignore-dir=.git` does not put `.git` back into the search. -/
theorem not_excludedByLastMention_git : ¬ ∀ (env : ParseEnv) (tm tm' : TypeManager)
    (userArgv projectArgv argv words : List Bytes) (opts : List (ParsedOption OptIndex))
    (nonOptions : List Bytes) (ap : ArgParse) (d : Bytes),
    combinedWords tm userArgv projectArgv argv = some words →
    parseArgs dynamicUsage words = some (opts, nonOptions) →
    parse env tm userArgv projectArgv argv = .ok (ap, tm') →
    ((dirInclusionManager ap).dirShouldBeExcluded d = true ↔ ExcludedByLastMention opts d) := by
  intro hclaim
  have haccepted : parseArgs dynamicUsage [str "--noignore-dir=.git", str "x"] =
      some ([⟨.ignoreDir, disable, some (str ".git")⟩], [str "x"]) := by decide
  have hskip : ∀ w ∈ [str "ucg", str "--noignore-dir=.git", str "x"],
      wordAction TypeManager.new w = .skip := by
    have hno := wordAction_new_eq_skip (str "noignore-dir=.git") (by decide) (by decide)
    simpa using ⟨rfl, hno, rfl⟩
  have hcombine : combineArgv [] [] [str "ucg", str "--noignore-dir=.git", str "x"] =
      [str "ucg", str "--noignore-dir=.git", str "x"] := by decide
  obtain ⟨hwords, hoptions⟩ := parse_of_skip hcombine hskip haccepted
  have hiff := hclaim ⟨true, 8⟩ _ _ _ _ _ _ _ _ _ (str ".git") hwords haccepted hoptions
  rw [dirShouldBeExcluded_iff] at hiff
  have hlast : lastMention [⟨.ignoreDir, disable, some (str ".git")⟩] (str ".git") =
      some ⟨.ignoreDir, disable, some (str ".git")⟩ := by decide
  have hspec := hiff.mp (Or.inl (by decide))
  rw [ExcludedByLastMention, hlast] at hspec
  exact absurd hspec (by decide)

end Ucg
