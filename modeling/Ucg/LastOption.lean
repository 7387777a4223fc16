import Ucg.ArgParse
import Ucg.Lib.LastSuch

/-! Repeated options: what `Parse` makes of a chain, and whether its last option decides. -/

namespace Ucg

open ByteOrder

section CheckedArguments

theorem of_mem_noDescriptors {ro : PreDescriptor} {longAlias : Bytes} {d : Descriptor OptIndex}
    (h : d ∈ ro.noDescriptors longAlias) : d.index = ro.index ∧ d.checkArg = ro.checkArg := by
  rcases List.mem_cons.mp h with rfl | h
  · exact ⟨rfl, rfl⟩
  · rw [List.mem_singleton.mp h]
    exact ⟨rfl, rfl⟩

theorem exists_rawOption {d : Descriptor OptIndex} (h : d ∈ dynamicUsage) :
    ∃ ro ∈ rawOptions, d.index = ro.index ∧ d.checkArg = ro.checkArg := by
  simp only [dynamicUsage, List.mem_append, List.mem_map, List.mem_flatMap] at h
  rcases h with (⟨ro, hro, rfl⟩ | ⟨ro, hro, hd⟩) | ⟨ro, hro, hd⟩
  · exact ⟨ro, hro, rfl, rfl⟩
  · refine ⟨ro, hro, ?_⟩
    obtain ⟨longAlias, -, hd⟩ := List.mem_flatMap.mp hd
    rcases List.mem_append.mp hd with hd | hd
    · by_cases hno : ro.isBracketNo = true
      · rw [if_pos hno] at hd
        exact of_mem_noDescriptors hd
      · simp [if_neg hno] at hd
    · rw [List.mem_singleton.mp hd]
      exact ⟨rfl, rfl⟩
  · refine ⟨ro, hro, ?_⟩
    rw [PreDescriptor.bracketNoDescriptors] at hd
    by_cases hno : ro.isBracketNo = true
    · rw [if_pos hno] at hd
      exact of_mem_noDescriptors hd
    · simp [if_neg hno] at hd

/-- The check that all options of an index make of their argument. -/
def indexCheck : OptIndex → Option Bytes → ArgStatus
  | .unknown => Arg.Unknown
  | .ignoreDir | .ignoreFile | .include | .exclude => Arg.NonEmpty
  | .type | .typeSet | .typeAdd | .typeDel => Arg.NonEmpty
  | .perfDirjobs | .perfScanjobs => Arg.IntegerGreater 0
  | _ => Arg.None

theorem checkArg_eq_indexCheck : ∀ ro ∈ rawOptions, ro.checkArg = indexCheck ro.index :=
  List.map_inj_left.mp rfl

theorem checkArg_of_index {index : OptIndex} {check : Option Bytes → ArgStatus}
    (h : indexCheck index = check) : ∀ ro ∈ rawOptions, ro.index = index → ro.checkArg = check := by
  rintro ro hro rfl
  exact (checkArg_eq_indexCheck ro hro).trans h

theorem checkArg_of_parseArgs {index : OptIndex} {check : Option Bytes → ArgStatus}
    {args nonops : List Bytes} {opts : List (ParsedOption OptIndex)} {o : ParsedOption OptIndex}
    (hraw : ∀ ro ∈ rawOptions, ro.index = index → ro.checkArg = check)
    (hnone : ∀ arg, check arg ≠ .none)
    (hparse : parseArgs dynamicUsage args = some (opts, nonops)) (ho : o ∈ opts)
    (hindex : o.index = index) : check o.arg = .ok := by
  obtain ⟨d, hd, hdindex, -, hcheck⟩ := gives_of_parseArgs hparse ho
  obtain ⟨ro, hro, hroindex, hrocheck⟩ := exists_rawOption hd
  rw [hrocheck, hraw ro hro (by rw [← hroindex, hdindex, hindex])] at hcheck
  rcases hcheck with hok | ⟨-, arg, harg⟩
  · exact hok
  · exact (hnone arg harg).elim

theorem integerGreater_ne_none (limit : Int) (arg : Option Bytes) :
    Arg.IntegerGreater limit arg ≠ .none := by
  rw [Arg.IntegerGreater]
  split_ifs <;> simp

theorem nonEmpty_ne_none (arg : Option Bytes) : Arg.NonEmpty arg ≠ .none := by
  rw [Arg.NonEmpty]
  split_ifs <;> simp

theorem stoi_eq_of_stol {s : Bytes} {m n : Int} (hm : stol s = some m) (hn : stoi s = some n) :
    n = m := by
  obtain ⟨hm, -⟩ := Option.filter_eq_some_iff.mp hm
  obtain ⟨hn, -⟩ := Option.filter_eq_some_iff.mp hn
  exact Option.some.inj (hn.symm.trans hm)

theorem pos_of_integerGreater {arg : Option Bytes} {n : Int}
    (h : Arg.IntegerGreater 0 arg = .ok) (hn : arg.bind stoi = some n) : 0 < n := by
  obtain ⟨text, rfl, hstoi⟩ := Option.bind_eq_some_iff.mp hn
  rw [Arg.IntegerGreater, Option.bind_some] at h
  cases hstol : stol text with
  | none => simp [hstol] at h
  | some m =>
    rw [stoi_eq_of_stol hstol hstoi]
    by_contra hle
    simp [hstol, hle] at h

end CheckedArguments

section LastWins

variable {env : ParseEnv} {opts : List (ParsedOption OptIndex)} {index : OptIndex}

/-- The number that the first option of a chain gives. -/
def firstNumber (opts : List (ParsedOption OptIndex)) (index : OptIndex) : Option Int :=
  (optionChain opts index).head?.bind fun o => o.arg.bind stoi

def lastNumber (opts : List (ParsedOption OptIndex)) (index : OptIndex) : Option Int :=
  (lastSuch (·.index = index) opts).bind fun o => o.arg.bind stoi

/-- Each field holds what the last option of its group says, when there is one. -/
structure LastWins (opts : List (ParsedOption OptIndex)) (ap : ArgParse) : Prop where
  jobs : ∀ o, lastSuch (·.index = .perfScanjobs) opts = some o →
    o.arg.bind stoi = some ap.jobs
  dirjobs : ∀ o, lastSuch (·.index = .perfDirjobs) opts = some o →
    o.arg.bind stoi = some ap.dirjobs
  color : ∀ o, lastSuch (·.index = .color) opts = some o → (ap.color = true ↔ o.type = enable)
  prefixFile : ∀ o, lastSuch (·.index = .prefixFile) opts = some o →
    (ap.prefixFile = true ↔ o.type = enable)
  recurse : ∀ o, lastSuch (·.index = .recurseSubdirs) opts = some o →
    (ap.recurse = true ↔ o.type = enable)
  followSymlinks : ∀ o, lastSuch (·.index = .follow) opts = some o →
    (ap.followSymlinks = true ↔ o.type = enable)
  column : ∀ o, lastSuch (·.index = .column) opts = some o → (ap.column = true ↔ o.type = enable)

theorem isGiven_of_lastSuch {o : ParsedOption OptIndex}
    (h : lastSuch (·.index = index) opts = some o) :
    isGiven opts index = true ∧ lastType opts index = o.type := by
  have hlast : (optionChain opts index).getLast? = some o := h
  constructor
  · cases hchain : optionChain opts index with
    | nil => simp [hchain] at hlast
    | cons first rest => simp [isGiven, hchain]
  · simp [lastType, hlast]

theorem foldl_handleCaseStep (chain : List (ParsedOption OptIndex)) (ap : ArgParse) :
    ∃ ignoring smart, chain.foldl handleCaseStep ap =
      { ap with ignoreCase := ignoring, smartCase := smart } := by
  induction chain generalizing ap with
  | nil => exact ⟨ap.ignoreCase, ap.smartCase, rfl⟩
  | cons o rest ih =>
    have hstep : ∃ ignoring smart, handleCaseStep ap o =
        { ap with ignoreCase := ignoring, smartCase := smart } := by
      rw [handleCaseStep]
      split_ifs
      · exact ⟨true, false, rfl⟩
      · exact ⟨false, true, rfl⟩
      · exact ⟨ap.ignoreCase, false, rfl⟩
      · exact ⟨ap.ignoreCase, ap.smartCase, rfl⟩
    obtain ⟨ignoring, smart, hstep⟩ := hstep
    obtain ⟨ignoring', smart', hrest⟩ := ih (handleCaseStep ap o)
    refine ⟨ignoring', smart', ?_⟩
    rw [List.foldl_cons, hrest, hstep]

theorem parseSwitches_jobs (ap : ArgParse) : (parseSwitches env opts ap).jobs = ap.jobs ∧
    (parseSwitches env opts ap).dirjobs = ap.dirjobs := by
  obtain ⟨ignoring, smart, hcase⟩ := foldl_handleCaseStep (optionChain opts .handleCase)
    { ap with useMmap := lastType opts .testUseMmap = enable }
  simp only [parseSwitches, hcase, apply_ite ArgParse.jobs, apply_ite ArgParse.dirjobs, ite_self,
    and_self]

theorem parseSwitches_color (ap : ArgParse) (h : isGiven opts .color = true) :
    (parseSwitches env opts ap).color = decide (lastType opts .color = enable) := by
  simp only [parseSwitches, apply_ite ArgParse.color, ite_self, h, if_true]

theorem parseSwitches_prefixFile (ap : ArgParse) (h : isGiven opts .prefixFile = true) :
    (parseSwitches env opts ap).prefixFile = decide (lastType opts .prefixFile = enable) := by
  simp only [parseSwitches, apply_ite ArgParse.prefixFile, ite_self, h, if_true]

theorem parseSwitches_recurse (ap : ArgParse) (h : isGiven opts .recurseSubdirs = true) :
    (parseSwitches env opts ap).recurse = decide (lastType opts .recurseSubdirs = enable) := by
  simp only [parseSwitches, apply_ite ArgParse.recurse, ite_self, h, if_true]

theorem parseSwitches_column (ap : ArgParse) :
    (parseSwitches env opts ap).column = decide (lastType opts .column = enable) := by
  simp only [parseSwitches, apply_ite ArgParse.column, ite_self]

theorem parseSwitches_followSymlinks (ap : ArgParse) :
    (parseSwitches env opts ap).followSymlinks = decide (lastType opts .follow = enable) := rfl

theorem parseDefaults_switches (env : ParseEnv) (ap : ArgParse) :
    (parseDefaults env ap).color = ap.color ∧ (parseDefaults env ap).prefixFile = ap.prefixFile ∧
      (parseDefaults env ap).recurse = ap.recurse ∧
      (parseDefaults env ap).followSymlinks = ap.followSymlinks ∧
      (parseDefaults env ap).column = ap.column := by
  simp only [parseDefaults, apply_ite ArgParse.color, apply_ite ArgParse.prefixFile,
    apply_ite ArgParse.recurse, apply_ite ArgParse.followSymlinks, apply_ite ArgParse.column,
    ite_self, and_self]

theorem parseDefaults_jobs {ap : ArgParse} (h : ap.jobs ≠ 0) :
    (parseDefaults env ap).jobs = ap.jobs := by
  simp only [parseDefaults, apply_ite ArgParse.jobs, h, if_false, ite_self]

theorem parseDefaults_dirjobs {ap : ArgParse} (h : ap.dirjobs ≠ 0) :
    (parseDefaults env ap).dirjobs = ap.dirjobs := by
  simp only [parseDefaults, apply_ite ArgParse.dirjobs, ite_self, h, if_false]

theorem exists_of_bind_eq_ok {ε α β : Type} {x : Except ε α} {f : α → Except ε β} {b : β}
    (h : x >>= f = .ok b) : ∃ a, x = .ok a ∧ f a = .ok b := by
  cases x with
  | error e => cases h
  | ok a => exact ⟨a, rfl, h⟩

theorem parseOptions_eq_ok {tm tm' : TypeManager} {nonOptions : List Bytes} {ap : ArgParse}
    (h : parseOptions env tm opts nonOptions = .ok (ap, tm')) :
    ∃ pattern paths dirjobs jobs, nonOptions = pattern :: paths ∧ optTypeLoop opts tm = .ok tm' ∧
      jobsOption opts .perfDirjobs 0 = .ok dirjobs ∧ jobsOption opts .perfScanjobs 0 = .ok jobs ∧
      ap = parseDefaults env
        { parseSwitches env opts { pattern := pattern, paths := paths } with
          dirjobs := dirjobs, jobs := jobs } := by
  rw [parseOptions.eq_def] at h
  split at h
  · cases h
  · cases nonOptions with
    | nil => cases h
    | cons pattern paths =>
      obtain ⟨tm₁, htm, h⟩ := exists_of_bind_eq_ok h
      obtain ⟨dirjobs, hdirjobs, h⟩ := exists_of_bind_eq_ok h
      obtain ⟨jobs, hjobs, h⟩ := exists_of_bind_eq_ok h
      rw [(parseSwitches_jobs _).1] at hjobs
      rw [(parseSwitches_jobs _).2] at hdirjobs
      obtain ⟨rfl, rfl⟩ := Prod.mk.inj (Except.ok.inj h)
      exact ⟨pattern, paths, dirjobs, jobs, rfl, htm, hdirjobs, hjobs, rfl⟩

theorem firstNumber_of_jobsOption {current n : Int} (h : jobsOption opts index current = .ok n)
    (hgiven : isGiven opts index = true) : firstNumber opts index = some n := by
  rw [jobsOption] at h
  rw [firstNumber]
  cases hchain : optionChain opts index with
  | nil => simp [isGiven, hchain] at hgiven
  | cons o rest =>
    rw [hchain] at h
    dsimp only at h
    cases hn : o.arg.bind stoi with
    | none =>
      rw [hn] at h
      cases h
    | some m =>
      rw [hn] at h
      rw [List.head?_cons, Option.bind_some, hn, Except.ok.inj h]

theorem lastNumber_iff {current n : Int} (h : jobsOption opts index current = .ok n) :
    (∀ o, lastSuch (·.index = index) opts = some o → o.arg.bind stoi = some n) ↔
      firstNumber opts index = lastNumber opts index := by
  cases hlast : lastSuch (·.index = index) opts with
  | none =>
    have hchain : optionChain opts index = [] := List.getLast?_eq_none_iff.mp hlast
    simp [firstNumber, lastNumber, hlast, hchain]
  | some o =>
    rw [firstNumber_of_jobsOption h (isGiven_of_lastSuch hlast).1, lastNumber, hlast]
    simp [eq_comm]

theorem exists_mem_of_firstNumber {n : Int} (h : firstNumber opts index = some n) :
    ∃ o ∈ opts, o.index = index ∧ o.arg.bind stoi = some n := by
  obtain ⟨o, hhead, hn⟩ := Option.bind_eq_some_iff.mp h
  obtain ⟨hmem, hindex⟩ := List.mem_filter.mp (List.mem_of_head? hhead)
  exact ⟨o, hmem, of_decide_eq_true hindex, hn⟩

theorem jobs_ne_zero_of_lastSuch {args nonops : List Bytes} {current n : Int}
    {o : ParsedOption OptIndex} (haccepted : parseArgs dynamicUsage args = some (opts, nonops))
    (hraw : ∀ ro ∈ rawOptions, ro.index = index → ro.checkArg = Arg.IntegerGreater 0)
    (hjobs : jobsOption opts index current = .ok n)
    (ho : lastSuch (·.index = index) opts = some o) : n ≠ 0 := by
  obtain ⟨first, hmem, hindex, hn⟩ := exists_mem_of_firstNumber
    (firstNumber_of_jobsOption hjobs (isGiven_of_lastSuch ho).1)
  have hcheck := checkArg_of_parseArgs hraw (integerGreater_ne_none 0) haccepted hmem hindex
  exact (pos_of_integerGreater hcheck hn).ne'

end LastWins

/-- The words that the option parser reads: those that `HandleTYPELogic` leaves of the words
of the rc files and of the command line. -/
def combinedWords (tm : TypeManager) (userArgv projectArgv argv : List Bytes) :
    Option (List Bytes) :=
  match handleTYPELogic tm (combineArgv userArgv projectArgv argv) with
  | .error _ => none
  | .ok (_, combinedArgv) => some (combinedArgv.drop 1)

theorem handleTYPELogic_of_skip {tm : TypeManager} {words : List Bytes}
    (h : ∀ w ∈ words, wordAction tm w = .skip) : handleTYPELogic tm words = .ok (tm, words) := by
  induction words with
  | nil => rfl
  | cons w rest ih =>
    have hrest := ih fun w hw => h w (List.mem_cons_of_mem _ hw)
    rw [handleTYPELogic, h w List.mem_cons_self]
    simp only [hrest]
    rfl

theorem parse_of_words {env : ParseEnv} {tm tm₁ : TypeManager}
    {userArgv projectArgv argv words : List Bytes} {opts : List (ParsedOption OptIndex)}
    {nonOptions : List Bytes}
    (hlogic : handleTYPELogic tm (combineArgv userArgv projectArgv argv) = .ok (tm₁, words))
    (haccepted : parseArgs dynamicUsage (words.drop 1) = some (opts, nonOptions)) :
    parse env tm userArgv projectArgv argv = parseOptions env tm₁ opts nonOptions := by
  rw [parse, hlogic]
  dsimp only
  rw [haccepted]

theorem parse_of_skip {env : ParseEnv} {tm : TypeManager}
    {userArgv projectArgv argv words : List Bytes} {opts : List (ParsedOption OptIndex)}
    {nonOptions : List Bytes} {program : Bytes}
    (hcombine : combineArgv userArgv projectArgv argv = program :: words)
    (hskip : ∀ w ∈ program :: words, wordAction tm w = .skip)
    (haccepted : parseArgs dynamicUsage words = some (opts, nonOptions)) :
    combinedWords tm userArgv projectArgv argv = some words ∧
      parse env tm userArgv projectArgv argv = parseOptions env tm opts nonOptions := by
  have hlogic : handleTYPELogic tm (combineArgv userArgv projectArgv argv) =
      .ok (tm, program :: words) := by
    rw [hcombine]
    exact handleTYPELogic_of_skip hskip
  constructor
  · rw [combinedWords, hlogic]
    rfl
  · exact parse_of_words hlogic haccepted

theorem exists_parseOptions {env : ParseEnv} {tm tm' : TypeManager}
    {userArgv projectArgv argv words : List Bytes} {opts : List (ParsedOption OptIndex)}
    {nonOptions : List Bytes} {ap : ArgParse}
    (hwords : combinedWords tm userArgv projectArgv argv = some words)
    (haccepted : parseArgs dynamicUsage words = some (opts, nonOptions))
    (hparse : parse env tm userArgv projectArgv argv = .ok (ap, tm')) :
    ∃ tm₁, parseOptions env tm₁ opts nonOptions = .ok (ap, tm') := by
  rw [combinedWords] at hwords
  cases htype : handleTYPELogic tm (combineArgv userArgv projectArgv argv) with
  | error e => simp [htype] at hwords
  | ok result =>
    obtain ⟨tm₁, combinedArgv⟩ := result
    obtain rfl : combinedArgv.drop 1 = words := by simpa [htype] using hwords
    exact ⟨tm₁, parse_of_words htype haccepted ▸ hparse⟩

/-- After `Parse` every field holds what the last option of its group says exactly when the
first `--jobs` and the first `--dirjobs` name the same numbers as the last ones. -/
theorem lastWins_parse_iff {env : ParseEnv} {tm tm' : TypeManager}
    {userArgv projectArgv argv words : List Bytes} {opts : List (ParsedOption OptIndex)}
    {nonOptions : List Bytes} {ap : ArgParse}
    (hwords : combinedWords tm userArgv projectArgv argv = some words)
    (haccepted : parseArgs dynamicUsage words = some (opts, nonOptions))
    (hparse : parse env tm userArgv projectArgv argv = .ok (ap, tm')) :
    LastWins opts ap ↔
      firstNumber opts .perfScanjobs = lastNumber opts .perfScanjobs ∧
        firstNumber opts .perfDirjobs = lastNumber opts .perfDirjobs := by
  obtain ⟨tm₁, hoptions⟩ := exists_parseOptions hwords haccepted hparse
  obtain ⟨pattern, paths, dirjobs, jobs, -, -, hdirjobs, hjobs, rfl⟩ := parseOptions_eq_ok hoptions
  have hjobsPos : ∀ o, lastSuch (·.index = .perfScanjobs) opts = some o → jobs ≠ 0 :=
    fun o ho => jobs_ne_zero_of_lastSuch haccepted (checkArg_of_index rfl) hjobs ho
  have hdirjobsPos : ∀ o, lastSuch (·.index = .perfDirjobs) opts = some o → dirjobs ≠ 0 :=
    fun o ho => jobs_ne_zero_of_lastSuch haccepted (checkArg_of_index rfl) hdirjobs ho
  rw [← lastNumber_iff hjobs, ← lastNumber_iff hdirjobs]
  constructor
  · intro h
    constructor
    · intro o ho
      rw [h.jobs o ho, parseDefaults_jobs (hjobsPos o ho)]
    · intro o ho
      rw [h.dirjobs o ho, parseDefaults_dirjobs (hdirjobsPos o ho)]
  · rintro ⟨hlastJobs, hlastDirjobs⟩
    obtain ⟨hcolor, hfile, hrecurse, hfollow, hcolumn⟩ := parseDefaults_switches env
      { parseSwitches env opts { pattern := pattern, paths := paths } with
        dirjobs := dirjobs, jobs := jobs }
    constructor
    · intro o ho
      rw [parseDefaults_jobs (hjobsPos o ho)]
      exact hlastJobs o ho
    · intro o ho
      rw [parseDefaults_dirjobs (hdirjobsPos o ho)]
      exact hlastDirjobs o ho
    · intro o ho
      obtain ⟨hgiven, htype⟩ := isGiven_of_lastSuch ho
      rw [hcolor, parseSwitches_color _ hgiven, htype, decide_eq_true_eq]
    · intro o ho
      obtain ⟨hgiven, htype⟩ := isGiven_of_lastSuch ho
      rw [hfile, parseSwitches_prefixFile _ hgiven, htype, decide_eq_true_eq]
    · intro o ho
      obtain ⟨hgiven, htype⟩ := isGiven_of_lastSuch ho
      rw [hrecurse, parseSwitches_recurse _ hgiven, htype, decide_eq_true_eq]
    · intro o ho
      rw [hfollow, parseSwitches_followSymlinks, (isGiven_of_lastSuch ho).2, decide_eq_true_eq]
    · intro o ho
      rw [hcolumn, parseSwitches_column, (isGiven_of_lastSuch ho).2, decide_eq_true_eq]

theorem wordAction_new_eq_skip (argtxt : Bytes)
    (hnames : ∀ e ∈ builtinTypeArray, ¬ argtxt <:+: str e.1 ∧ ¬ argtxt.drop 2 <:+: str e.1)
    (hparam : str "no" <+: argtxt ∨ fileTypeParam (split argtxt equalsSign) = none) :
    wordAction .new (dashDash ++ argtxt) = .skip := by
  have hmatching := TypeManager.getMatchingTypenameList_new fun e he => (hnames e he).1
  have hdrop := TypeManager.getMatchingTypenameList_new fun e he => (hnames e he).2
  have hargtxt : (dashDash ++ argtxt).drop 2 = argtxt := rfl
  have hne : dashDash ++ argtxt ≠ dashDash := by
    intro heq
    obtain rfl : argtxt = [] := by simpa using heq
    exact (hnames _ List.mem_cons_self).1 List.nil_infix
  rw [wordAction]
  split_ifs with hshort
  · rfl
  · dsimp only
    rw [hargtxt, hmatching, hdrop]
    dsimp only
    split_ifs with hno
    · rfl
    · rw [hparam.resolve_left hno]

/-- The witness: the rc file says `--follow` and `-j2`, the command line `--nofollow`. -/
theorem lastWins_parse_follow : ∃ ap tm',
    parse ⟨true, 8⟩ TypeManager.new [str "--follow"] [str "-j2"]
      [str "ucg", str "--nofollow", str "x"] = .ok (ap, tm') ∧
    LastWins [⟨.follow, enable, none⟩, ⟨.perfScanjobs, 0, some (str "2")⟩,
      ⟨.follow, disable, none⟩] ap := by
  have haccepted : parseArgs dynamicUsage
      [str "--follow", str "-j2", str "--nofollow", str "x"] =
        some ([⟨.follow, enable, none⟩, ⟨.perfScanjobs, 0, some (str "2")⟩,
          ⟨.follow, disable, none⟩], [str "x"]) := by decide
  have hskip : ∀ w ∈ [str "ucg", str "--follow", str "-j2", str "--nofollow", str "x"],
      wordAction TypeManager.new w = .skip := by
    have hfollow := wordAction_new_eq_skip (str "follow") (by decide) (by decide)
    have hnofollow := wordAction_new_eq_skip (str "nofollow") (by decide) (by decide)
    simpa using ⟨rfl, hfollow, rfl, hnofollow, rfl⟩
  have hcombine : combineArgv [str "--follow"] [str "-j2"]
      [str "ucg", str "--nofollow", str "x"] =
        [str "ucg", str "--follow", str "-j2", str "--nofollow", str "x"] := by decide
  obtain ⟨hwords, hoptions⟩ := parse_of_skip hcombine hskip haccepted
  refine ⟨_, _, hoptions, ?_⟩
  exact (lastWins_parse_iff hwords haccepted hoptions).mpr (by decide)

/-- The rc file says `--jobs=2` and the command line `--jobs=4`: there are two jobs. -/
theorem not_lastWins_jobs : ¬ ∀ (env : ParseEnv) (tm tm' : TypeManager)
    (userArgv projectArgv argv words : List Bytes) (opts : List (ParsedOption OptIndex))
    (nonOptions : List Bytes) (ap : ArgParse),
    combinedWords tm userArgv projectArgv argv = some words →
    parseArgs dynamicUsage words = some (opts, nonOptions) →
    parse env tm userArgv projectArgv argv = .ok (ap, tm') → LastWins opts ap := by
  intro hclaim
  have haccepted : parseArgs dynamicUsage [str "--jobs=2", str "--jobs=4", str "x"] =
      some ([⟨.perfScanjobs, 0, some (str "2")⟩, ⟨.perfScanjobs, 0, some (str "4")⟩],
        [str "x"]) := by decide
  have hskip : ∀ w ∈ [str "ucg", str "--jobs=2", str "--jobs=4", str "x"],
      wordAction TypeManager.new w = .skip := by
    have hjobs := wordAction_new_eq_skip (str "jobs=2") (by decide) (by decide)
    have hlater := wordAction_new_eq_skip (str "jobs=4") (by decide) (by decide)
    simpa using ⟨rfl, hjobs, hlater, rfl⟩
  have hcombine : combineArgv [str "--jobs=2"] [] [str "ucg", str "--jobs=4", str "x"] =
      [str "ucg", str "--jobs=2", str "--jobs=4", str "x"] := by decide
  obtain ⟨hwords, hoptions⟩ := parse_of_skip hcombine hskip haccepted
  have hlast := (hclaim ⟨true, 8⟩ _ _ _ _ _ _ _ _ _ hwords haccepted hoptions).jobs
    ⟨.perfScanjobs, 0, some (str "4")⟩ (by decide)
  exact absurd hlast (by decide)

end Ucg
