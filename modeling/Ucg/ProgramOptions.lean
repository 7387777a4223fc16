import Ucg.CompiledLookup
import Ucg.IgnoreFile
import Ucg.SearchedFiles

/-! What the words of a command line make of a run: `Parse` leaves the types as some operations on
them leave them, and the filters, the start paths, the output and the threads as the options say. -/

namespace Ucg

open ByteOrder Transition TypeManager

section Types

variable {tm tm' : TypeManager} {ops : List TypeOp}

theorem exists_step_of_applyParam {p : FileTypeParam} (hp : nul ∉ p.arg)
    (h : tm.applyParam p = .ok tm') : ∃ op, TypeStep tm op tm' := by
  have hprefix (text : Bytes) (htext : nul ∉ text) {glob : Bytes} (hglob : nul ∉ glob) :
      nul ∉ text ++ glob := by
    rw [List.mem_append, not_or]
    exact ⟨htext, hglob⟩
  cases p with
  | typeAdd spec => exact ⟨.add false ⟨spec, hp⟩, h⟩
  | typeSet spec => exact ⟨.add true ⟨spec, hp⟩, h⟩
  | typeDel type => exact ⟨.del type, h⟩
  | ignoreFile spec => exact ⟨.ignoreFile ⟨spec, hp⟩, h⟩
  | exclude glob => exact ⟨.ignoreFile ⟨_, hprefix (str "globx:") (by decide) hp⟩, h⟩
  | «include» glob => exact ⟨.includeGlob ⟨_, hprefix (str "glob:") (by decide) hp⟩, h⟩

theorem exists_typeRun_calls (h : TypeRun ops tm) (cs : List TypeCall) :
    ∃ ops', TypeRun ops' (tm.calls cs) := by
  induction cs generalizing tm ops with
  | nil => exact ⟨ops, h⟩
  | cons c cs ih =>
    cases c with
    | type t => exact ih (h.tail (e := .type t) rfl)
    | notype t => exact ih (h.tail (e := .notype t) rfl)

theorem exists_typeRun_of_words {words words' : List Bytes} (hwords : ∀ w ∈ words, nul ∉ w)
    (hlogic : handleTYPELogic .new words = .ok (tm, words')) : ∃ ops, TypeRun ops tm := by
  have hstep : ∀ w ∈ words, ∀ tm p tm', (∃ ops, TypeRun ops tm) → wordAction tm w = .param p →
      tm.applyParam p = .ok tm' → ∃ ops, TypeRun ops tm' := by
    rintro w hw tm p tm' ⟨ops, hops⟩ haction happly
    obtain ⟨op, hop⟩ := exists_step_of_applyParam (not_mem_arg_of_wordAction (hwords w hw) haction) happly
    exact ⟨_, hops.tail hop⟩
  rw [← List.append_nil words] at hlogic
  obtain ⟨tm₁, back, hrun, hnil⟩ := handleTYPELogic_invariant ⟨[], typeRun_nil⟩ hstep hlogic
  obtain ⟨rfl, -⟩ := Prod.mk.inj (Except.ok.inj hnil)
  exact hrun

theorem parse_inversion {env : ParseEnv} {userArgv projectArgv argv : List Bytes} {ap : ArgParse}
    (h : parse env tm userArgv projectArgv argv = .ok (ap, tm')) :
    ∃ tm₁ words opts nonOptions,
      handleTYPELogic tm (combineArgv userArgv projectArgv argv) = .ok (tm₁, words) ∧
        parseArgs dynamicUsage (words.drop 1) = some (opts, nonOptions) ∧
        parseOptions env tm₁ opts nonOptions = .ok (ap, tm') := by
  rw [parse] at h
  split at h
  · cases h
  · rename_i tm₁ words hlogic
    split at h
    · cases h
    · rename_i opts nonOptions hoptions
      exact ⟨tm₁, words, opts, nonOptions, hlogic, hoptions, h⟩

end Types

section Options

variable {env : ParseEnv} {opts : List (ParsedOption OptIndex)} {index : OptIndex}

theorem not_isGiven_of_lastSuch (h : lastSuch (·.index = index) opts = none) :
    isGiven opts index = false := by
  have hchain : optionChain opts index = [] := List.getLast?_eq_none_iff.mp h
  simp [isGiven, hchain]

theorem lastType_eq_enable_iff : lastType opts index = enable ↔
    ∃ o, lastSuch (·.index = index) opts = some o ∧ o.type = enable := by
  cases hlast : lastSuch (·.index = index) opts with
  | none =>
    have hchain : optionChain opts index = [] := List.getLast?_eq_none_iff.mp hlast
    simp [lastType, hchain, enable]
  | some o => simp [(isGiven_of_lastSuch hlast).2]

theorem jobsOption_nonneg {args nonops : List Bytes} {n : Int}
    (haccepted : parseArgs dynamicUsage args = some (opts, nonops))
    (hraw : ∀ ro ∈ rawOptions, ro.index = index → ro.checkArg = Arg.IntegerGreater 0)
    (h : jobsOption opts index 0 = .ok n) : 0 ≤ n := by
  cases hlast : lastSuch (·.index = index) opts with
  | none =>
    have hchain : optionChain opts index = [] := List.getLast?_eq_none_iff.mp hlast
    rw [jobsOption, hchain] at h
    exact (Except.ok.inj h).le
  | some o =>
    obtain ⟨first, hmem, hindex, hn⟩ := exists_mem_of_firstNumber
      (firstNumber_of_jobsOption h (isGiven_of_lastSuch hlast).1)
    have hcheck := checkArg_of_parseArgs hraw (integerGreater_ne_none 0) haccepted hmem hindex
    exact (pos_of_integerGreater hcheck hn).le

theorem parseDefaults_pos {ap : ArgParse} (hjobs : 0 ≤ ap.jobs) (hdirjobs : 0 ≤ ap.dirjobs) :
    0 < (parseDefaults env ap).jobs ∧ 0 < (parseDefaults env ap).dirjobs := by
  constructor
  · simp only [parseDefaults, apply_ite ArgParse.jobs, ite_self]
    split_ifs <;> omega
  · simp only [parseDefaults, apply_ite ArgParse.dirjobs, ite_self]
    split_ifs with hzero
    · decide
    · omega

theorem paths_parse (ap : ArgParse) : (parseDefaults env ap).paths =
    if ap.paths = [] then [[dot]] else ap.paths := by
  simp only [parseDefaults, apply_ite ArgParse.paths, ite_self]

theorem paths_parseSwitches (ap : ArgParse) : (parseSwitches env opts ap).paths = ap.paths := by
  obtain ⟨ignoring, smart, hcase⟩ := foldl_handleCaseStep (optionChain opts .handleCase)
    { ap with useMmap := lastType opts .testUseMmap = enable }
  simp only [parseSwitches, hcase, apply_ite ArgParse.paths, ite_self]

end Options

/-- The walk and the output are set up as the last options of their kind say, the files by the types,
and the excluded directories by the last mention of each. -/
structure SetByOptions {D : Type*} (opts : List (ParsedOption OptIndex)) (paths : List Bytes)
    (tm : TypeManager) (fnmatch : Bytes → Bytes → Bool) (setup : ProgramSetup D) : Prop where
  startPaths : setup.startPaths = if paths = [] then [[dot]] else paths
  recurse : setup.dirTree.recurse = true ↔
    ∀ o, lastSuch (·.index = .recurseSubdirs) opts = some o → o.type = enable
  followSymlinks : setup.dirTree.followSymlinks = true ↔
    ∃ o, lastSuch (·.index = .follow) opts = some o ∧ o.type = enable
  files : ∀ name, nul ∉ name →
    tm.AnswersAsDefined fnmatch name (setup.dirTree.fileBasenameFilter name)
  dirs : ∀ name, setup.dirTree.dirBasenameFilter name = true ↔
    IsBuiltinDirExclude name ∨ ∃ o, lastMention opts name = some o ∧ o.type = enable
  color : ∀ o, lastSuch (·.index = .color) opts = some o →
    (setup.outputContext.enableColor = true ↔ o.type = enable)
  prefixFile : ∀ o, lastSuch (·.index = .prefixFile) opts = some o →
    (setup.outputContext.prefixFile = true ↔ o.type = enable)
  column : setup.outputContext.printColumn = true ↔
    ∃ o, lastSuch (·.index = .column) opts = some o ∧ o.type = enable

section Setup

variable {D : Type*} {env : ParseEnv} {opts : List (ParsedOption OptIndex)} {tm tm₁ : TypeManager}
  {ap : ArgParse} {pattern : Bytes} {paths words : List Bytes} {fnmatch : Bytes → Bytes → Bool}
  {fs : FileSystem D} {outcome : Bytes → FileOutcome}

theorem recurse_parseSwitches (ap : ArgParse) (hdefault : ap.recurse = true) :
    (parseSwitches env opts ap).recurse = true ↔
      ∀ o, lastSuch (·.index = .recurseSubdirs) opts = some o → o.type = enable := by
  cases hlast : lastSuch (·.index = .recurseSubdirs) opts with
  | none =>
    obtain ⟨ignoring, smart, hcase⟩ := foldl_handleCaseStep (optionChain opts .handleCase)
      { ap with useMmap := lastType opts .testUseMmap = enable }
    have hkept : (parseSwitches env opts ap).recurse = ap.recurse := by
      simp only [parseSwitches, hcase, apply_ite ArgParse.recurse, ite_self,
        not_isGiven_of_lastSuch hlast, if_false, Bool.false_eq_true]
    simp [hkept, hdefault]
  | some o =>
    obtain ⟨hgiven, htype⟩ := isGiven_of_lastSuch hlast
    simp [parseSwitches_recurse _ hgiven, htype]

theorem setByOptions_programSetup (haccepted : parseArgs dynamicUsage words = some (opts, pattern :: paths))
    (hoptions : parseOptions env tm₁ opts (pattern :: paths) = .ok (ap, tm)) (htm : tm.Uncompiled) :
    SetByOptions opts paths tm fnmatch (programSetup ap tm fnmatch fs outcome) := by
  obtain ⟨_, _, dirjobs, jobs, hnon, -, -, -, hap⟩ := parseOptions_eq_ok hoptions
  obtain ⟨rfl, rfl⟩ := List.cons.inj hnon
  have harg : ∀ o ∈ opts, o.index = .ignoreDir → ∃ a, o.arg = some a := fun o ho hindex =>
    exists_arg_of_nonEmpty
      (checkArg_of_parseArgs (checkArg_of_index rfl) nonEmpty_ne_none haccepted ho hindex)
  have hpaths : ap.paths = if paths = [] then [[dot]] else paths := by
    rw [hap, paths_parse]
    dsimp only
    rw [paths_parseSwitches]
  have hexcludes : ap.excludes = (optionChain opts .ignoreDir).foldl ignoreDirStep SortedMap.empty := by
    rw [hap, excludes_parseDefaults]
    exact excludes_parseSwitches env opts _
  obtain ⟨hcolor, hfile, hrecurse, hfollow, hcolumn⟩ := parseDefaults_switches env
    { parseSwitches env opts { pattern := pattern, paths := paths } with
      dirjobs := dirjobs, jobs := jobs }
  rw [← hap] at hcolor hfile hrecurse hfollow hcolumn
  dsimp only at hcolor hfile hrecurse hfollow hcolumn
  constructor
  · exact hpaths
  · change ap.recurse = true ↔ _
    rw [hrecurse]
    exact recurse_parseSwitches _ rfl
  · change ap.followSymlinks = true ↔ _
    rw [hfollow, parseSwitches_followSymlinks, decide_eq_true_eq]
    exact lastType_eq_enable_iff
  · exact fun name hname => answersAsDefined_fileShouldBeScanned htm hname
  · intro name
    refine (dirShouldBeExcluded_iff ap name).trans ?_
    rw [hexcludes, find?_excludes harg]
  · intro o ho
    obtain ⟨hgiven, htype⟩ := isGiven_of_lastSuch ho
    change ap.color = true ↔ _
    rw [hcolor, parseSwitches_color _ hgiven, htype, decide_eq_true_eq]
  · intro o ho
    obtain ⟨hgiven, htype⟩ := isGiven_of_lastSuch ho
    change ap.prefixFile = true ↔ _
    rw [hfile, parseSwitches_prefixFile _ hgiven, htype, decide_eq_true_eq]
  · change ap.column = true ↔ _
    rw [hcolumn, parseSwitches_column, decide_eq_true_eq]
    exact lastType_eq_enable_iff

theorem jobs_pos_of_parse (haccepted : parseArgs dynamicUsage words = some (opts, pattern :: paths))
    (hoptions : parseOptions env tm₁ opts (pattern :: paths) = .ok (ap, tm)) :
    0 < ap.jobs ∧ 0 < ap.dirjobs := by
  obtain ⟨_, _, dirjobs, jobs, -, -, hdirjobs, hjobs, rfl⟩ := parseOptions_eq_ok hoptions
  exact parseDefaults_pos (jobsOption_nonneg haccepted (checkArg_of_index rfl) hjobs)
    (jobsOption_nonneg haccepted (checkArg_of_index rfl) hdirjobs)

/-- A run of the program that `Parse` sets up from the words of the rc files and of the command line:
whatever the file system and the options are, the lists that it has written are of files that the
options let be searched, each with all its matches, and the status it returns says whether there
are any. -/
theorem program_of_words {userArgv projectArgv argv : List CString}
    (hparse : parse env .new (userArgv.map (·.bytes)) (projectArgv.map (·.bytes))
      (argv.map (·.bytes)) = .ok (ap, tm))
    {s : ProgramState ap.dirjobs.toNat ap.jobs.toNat D}
    (h : ProgramReachable (programSetup ap tm fnmatch fs outcome) s) :
    0 < ap.dirjobs.toNat ∧ 0 < ap.jobs.toNat ∧ (∃ ops, TypeRun ops tm) ∧
      ∃ (words : List Bytes) (opts : List (ParsedOption OptIndex)) (pattern : Bytes) (paths : List Bytes),
        combinedWords .new (userArgv.map (·.bytes)) (projectArgv.map (·.bytes)) (argv.map (·.bytes)) =
            some words ∧
          parseArgs dynamicUsage words = some (opts, pattern :: paths) ∧
          SetByOptions opts paths tm fnmatch (programSetup ap tm fnmatch fs outcome) ∧
          ∃ lists : List MatchList, s.cout = writeAll ap.outputContext false lists ∧
            (∀ ml ∈ lists, SearchedFile (globber ap tm fnmatch) fs ap.paths ml.filename ∧
              outcome ml.filename = .scanned ml.matchList ∧ ml.matchList ≠ []) ∧
            ∀ status, s.main = .returned status → status = if lists = [] then 1 else 0 := by
  obtain ⟨tm₁, words, opts, nonOptions, hlogic, haccepted, hoptions⟩ := parse_inversion hparse
  obtain ⟨pattern, paths, -, -, rfl, -⟩ := parseOptions_eq_ok hoptions
  obtain ⟨hjobs, hdirjobs⟩ := jobs_pos_of_parse haccepted hoptions
  obtain ⟨ops, hops⟩ := exists_typeRun_of_words (fun _ => nul_not_mem_combineArgv) hlogic
  have htypes : ∃ ops, TypeRun ops tm := by
    obtain ⟨_, _, _, _, -, hloop, -⟩ := parseOptions_eq_ok hoptions
    obtain ⟨-, rfl⟩ := optTypeLoop_eq_ok hloop
    exact exists_typeRun_calls hops _
  have huncompiled : tm.Uncompiled := by
    obtain ⟨_, hrun⟩ := htypes
    exact hrun.invariant.1
  have hwords : combinedWords .new (userArgv.map (·.bytes)) (projectArgv.map (·.bytes))
      (argv.map (·.bytes)) = some (words.drop 1) := by
    rw [combinedWords, hlogic]
  refine ⟨by omega, by omega, htypes, words.drop 1, opts, pattern, paths, hwords, haccepted,
    setByOptions_programSetup haccepted hoptions huncompiled, s.outputTask.printed,
    (ProgramReachable.written h).cout, fun ml hml => printed_searched h hml, fun status hmain => ?_⟩
  exact (ProgramReachable.returned (by omega) h hmain).2

end Setup

section OneFile

/-- Every path names the same regular file. -/
def oneFile : FileSystem Bool where
  stat _ := some ⟨.reg, 1, 1⟩
  opendir _ := none
  readdir _ := []
  fstatat _ _ _ := none
  opendirat _ _ := none

/-- What `Parse` makes of `ucg --dirjobs=1 -j1 x d` when the output is no terminal. -/
def oneThread : ArgParse where
  pattern := str "x"
  ignoreCase := true
  paths := [str "d"]
  jobs := 1
  dirjobs := 1
  color := false
  prefixFile := true

def oneFileSetup : ProgramSetup Bool :=
  programSetup oneThread .new fnmatchStar oneFile fun _ => .scanned [⟨1, [97], [120], []⟩]

theorem parse_oneThread : parse ⟨false, 8⟩ .new [] []
    [str "ucg", str "--dirjobs=1", str "-j1", str "x", str "d"] = .ok (oneThread, .new) := by
  have haccepted : parseArgs dynamicUsage [str "--dirjobs=1", str "-j1", str "x", str "d"] =
      some ([⟨.perfDirjobs, 0, some (str "1")⟩, ⟨.perfScanjobs, 0, some (str "1")⟩],
        [str "x", str "d"]) := by decide +kernel
  have hskip : ∀ w ∈ [str "ucg", str "--dirjobs=1", str "-j1", str "x", str "d"],
      wordAction .new w = .skip := by
    have hdirjobs := wordAction_new_eq_skip (str "dirjobs=1") (by decide) (by decide)
    simpa using ⟨rfl, hdirjobs, rfl, rfl, rfl⟩
  have hcombine : combineArgv [] [] [str "ucg", str "--dirjobs=1", str "-j1", str "x", str "d"] =
      [str "ucg", str "--dirjobs=1", str "-j1", str "x", str "d"] := by decide
  rw [(parse_of_skip hcombine hskip haccepted).2]
  rfl

theorem oneFileSetup_returns : ∃ s : ProgramState 1 1 Bool, ProgramReachable oneFileSetup s ∧
    s.main = .returned 0 ∧ s.cout = str "d:1:ax\n" := by
  have hstart : @ProgramReachable Bool 1 1 oneFileSetup _ := .start rfl
  have hthreads := (hstart.tail (.startPath (str "d") [] rfl)).tail (.startThreads rfl)
  have hasleep := hthreads.tail (.traverse rfl (.pullFront 0 rfl))
  have hclosed := (hasleep.tail (.traverse rfl (.masterWait rfl))).tail (.traverse rfl (.close rfl))
  have hexited := (hclosed.tail (.traverse rfl (.closeNotify rfl))).tail
    (.traverse rfl (.reacquire 0 rfl))
  have hjoined := hexited.tail (.traverse rfl (.join rfl fun i => by rw [Subsingleton.elim i 0]; rfl))
  have htaken := ((hjoined.tail (.closeFiles rfl rfl)).tail (.scanner 0 {} rfl)).tail
    (.scanner 0 {} rfl)
  have hnamed := (htaken.tail (.scanner 0 {} rfl)).tail (.scanner 0 {} rfl)
  have hcleared := (hnamed.tail (.scanner 0 {} rfl)).tail (.scanner 0 {} rfl)
  have hscanned := (hcleared.tail (.scanner 0 {} rfl)).tail (.scanner 0 {} rfl)
  have hmatches := (hscanned.tail
    (.joinScanners rfl fun i => by rw [Subsingleton.elim i 0]; rfl)).tail (.closeMatches rfl)
  have hprinted := ((hmatches.tail (.output rfl)).tail (.output rfl)).tail (.output rfl)
  have hcounted := ((hprinted.tail (.output rfl)).tail (.output rfl)).tail (.output rfl)
  exact ⟨_, hcounted.tail (.joinOutput rfl rfl), rfl, by decide⟩

theorem program_of_words_oneFile : ∃ (s : ProgramState 1 1 Bool) (lists : List MatchList),
    s.main = .returned 0 ∧ s.cout = str "d:1:ax\n" ∧
      s.cout = writeAll oneThread.outputContext false lists ∧
      ∀ ml ∈ lists, SearchedFile (globber oneThread .new fnmatchStar) oneFile [str "d"] ml.filename := by
  obtain ⟨s, hreach, hmain, hcout⟩ := oneFileSetup_returns
  let argv : List CString := [⟨str "ucg", by decide⟩, ⟨str "--dirjobs=1", by decide⟩,
    ⟨str "-j1", by decide⟩, ⟨str "x", by decide⟩, ⟨str "d", by decide⟩]
  have hparse : parse ⟨false, 8⟩ .new (([] : List CString).map (·.bytes))
      (([] : List CString).map (·.bytes)) (argv.map (·.bytes)) = .ok (oneThread, .new) := parse_oneThread
  obtain ⟨-, -, -, _, _, _, _, -, -, -, lists, hlists, hsearched, -⟩ := program_of_words hparse hreach
  exact ⟨s, lists, hmain, hcout, hlists, fun ml hml => (hsearched ml hml).1⟩

end OneFile

end Ucg
