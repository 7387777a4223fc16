import Ucg.CommandLine
import Ucg.ProjectRC
import Ucg.RcFile
import Ucg.Terminator

/-! The rc files of the user and the project: their words are read in front of those of the
command line. -/

namespace Ucg

open Iteration

/-- The system with what `File` reads at a path. `none` is an exception of its constructor. -/
structure ConfigSystem (Fd : Type) extends HostSystem Fd where
  readFile : Bytes → Option Bytes

namespace ConfigSystem

variable {Fd : Type} (sys : ConfigSystem Fd)

/-- `none` is a loop that has not come to its end after `n` evaluations, or the crash of
`get_home_dir_name`, here and below. -/
def readRCFile (n : Nat) (name : Bytes) : Option (Except ArgParseException (List Bytes)) :=
  match sys.readFile name with
  | none => some (.ok [])
  | some content =>
    if content = [] then some (.ok [])
    else
      match run (convertRCStep name) n ⟨content, []⟩ with
      | .done r => some r
      | .next _ => none

def readUserRC (n : Nat) (testNoenvUser : Bool) : Option (Except ArgParseException (List Bytes)) :=
  if testNoenvUser then some (.ok [])
  else
    match sys.getHomeDirName with
    | none => none
    | some homeDir =>
      if homeDir = [] then some (.ok []) else sys.readRCFile n (homeDir ++ str "/.ucgrc")

def readProjectRC (n : Nat) : Option (Except ArgParseException (List Bytes)) :=
  match sys.getProjectRCFilename n with
  | some (.done name) => if name = [] then some (.ok []) else sys.readRCFile n name
  | _ => none

/-- `FindAndParseConfigFiles`: the words of the user's file and those of the project's. -/
def findAndParseConfigFiles (n : Nat) (testNoenvUser : Bool) :
    Option (Except ArgParseException (List Bytes × List Bytes)) :=
  match sys.readUserRC n testNoenvUser with
  | none => none
  | some (.error e) => some (.error e)
  | some (.ok userArgv) => (sys.readProjectRC n).map fun projectArgv => projectArgv.map (userArgv, ·)

/-- `Parse` from the words of the command line on. -/
def parseCommandLine (env : ParseEnv) (tm : TypeManager) (n : Nat) (argv : List Bytes) :
    Option (Except ParseExit (ArgParse × TypeManager)) :=
  let front := argv.takeWhile (· ≠ dashDash)
  if str "--noenv" ∈ front then some (parse env tm [] [] argv)
  else
    (sys.findAndParseConfigFiles n (str "--test-noenv-user" ∈ front)).map fun config =>
      match config with
      | .error e => .error (.argParseException e)
      | .ok (userArgv, projectArgv) => parse env tm userArgv projectArgv argv

end ConfigSystem

section Words

variable {Fd : Type} {sys : ConfigSystem Fd} {n : Nat} {name : Bytes} {words : List Bytes}

theorem convertRCStep_isRCOption (name : Bytes) (s : RCState) (h : ∀ p ∈ s.retval, IsRCOption p) :
    (convertRCStep name s).Holds (fun s' => ∀ p ∈ s'.retval, IsRCOption p)
      fun r => ∀ words, r = .ok words → ∀ p ∈ words, IsRCOption p := by
  rw [convertRCStep]
  dsimp only
  split_ifs with hend
  · intro words hwords
    cases hwords
    exact h
  · exact h
  · rw [convertRCLine]
    dsimp only
    split_ifs with hcomment hdash hhead
    · exact h
    · intro words hwords
      cases hwords
    · intro words hwords
      cases hwords
    · exact List.forall_mem_append.mpr ⟨h, List.forall_mem_singleton.mpr ⟨not_not.mp hhead, hdash⟩⟩

theorem isRCOption_of_readRCFile (h : sys.readRCFile n name = some (.ok words)) :
    ∀ p ∈ words, IsRCOption p := by
  rw [ConfigSystem.readRCFile] at h
  split at h
  · cases h
    simp
  · rename_i content _
    split_ifs at h with hempty
    · cases h
      simp
    · have hrun := run_holds (convertRCStep_isRCOption name) n (s := ⟨content, []⟩) (by simp)
      split at h
      · rename_i r hr
        cases h
        rw [hr] at hrun
        exact hrun words rfl
      · cases h

/-- The words of the rc files are options, and none of them ends the options. -/
theorem isRCOption_of_config {testNoenvUser : Bool} {userArgv projectArgv : List Bytes}
    (h : sys.findAndParseConfigFiles n testNoenvUser = some (.ok (userArgv, projectArgv))) :
    ∀ p ∈ userArgv ++ projectArgv, IsRCOption p := by
  have huser {words : List Bytes} (hwords : sys.readUserRC n testNoenvUser = some (.ok words)) :
      ∀ p ∈ words, IsRCOption p := by
    rw [ConfigSystem.readUserRC] at hwords
    split_ifs at hwords
    · cases hwords
      simp
    · split at hwords
      · cases hwords
      · split_ifs at hwords
        · cases hwords
          simp
        · exact isRCOption_of_readRCFile hwords
  have hproject {words : List Bytes} (hwords : sys.readProjectRC n = some (.ok words)) :
      ∀ p ∈ words, IsRCOption p := by
    rw [ConfigSystem.readProjectRC] at hwords
    split at hwords
    · split_ifs at hwords
      · cases hwords
        simp
      · exact isRCOption_of_readRCFile hwords
    · cases hwords
  rw [ConfigSystem.findAndParseConfigFiles] at h
  split at h
  · cases h
  · cases h
  · rename_i words hread
    obtain ⟨r, hr, heq⟩ := Option.map_eq_some_iff.mp h
    cases r with
    | error e => cases heq
    | ok words' =>
      cases heq
      exact List.forall_mem_append.mpr ⟨huser hread, hproject hr⟩

end Words

section Sources

open ByteOrder TypeManager

variable {tm tm' tm₁ tm₂ tm₃ : TypeManager}

theorem wordStep_ne_dashDash {w w' : Bytes} (h : wordStep tm w = .ok (tm', w')) (hw : w ≠ dashDash) :
    w' ≠ dashDash := by
  have htype {no argtxt newParam : Bytes} {names : List Bytes}
      (hmatched : matchedAction no argtxt names = .rewrite newParam) : newParam ≠ dashDash := by
    obtain ⟨typeName, -, rfl⟩ := matchedAction_eq_rewrite hmatched
    intro heq
    have hprefix : str "--type=" <+: dashDash := by
      rw [← heq, List.append_assoc]
      exact List.prefix_append _ _
    exact absurd hprefix.length_le (by decide)
  rw [wordStep] at h
  cases haction : wordAction tm w with
  | stop => exact (wordAction_ne_stop haction).elim
  | skip =>
    rw [haction] at h
    cases h
    exact hw
  | ambiguous possibilities => simp [haction] at h
  | param p =>
    rw [haction] at h
    dsimp only at h
    split at h
    · cases h
    · cases h
      exact hw
  | rewrite newParam =>
    rw [haction] at h
    cases h
    obtain ⟨argtxt, hne, rfl⟩ := exists_dashDash_of_wordAction haction (by simp)
    rw [wordAction_dashDash hne] at haction
    split_ifs at haction
    · exact htype haction
    · exact htype haction
    · cases hp : fileTypeParam (split argtxt equalsSign) <;> simp [hp] at haction

theorem exists_of_map_eq_ok {ε α β : Type} {x : Except ε α} {f : α → β} {b : β}
    (h : x.map f = .ok b) : ∃ a, x = .ok a ∧ f a = b := by
  cases x with
  | error e => cases h
  | ok a => exact ⟨a, rfl, Except.ok.inj h⟩

theorem handleTYPELogic_dashDash_not_mem {words words' : List Bytes}
    (h : handleTYPELogic tm words = .ok (tm', words')) (hterminator : dashDash ∉ words) :
    dashDash ∉ words' := by
  induction words generalizing tm words' with
  | nil =>
    cases h
    exact hterminator
  | cons w rest ih =>
    obtain ⟨hw, hrest⟩ := List.ne_and_not_mem_of_not_mem_cons hterminator
    rw [handleTYPELogic_eq] at h
    obtain ⟨⟨tm₁, w'⟩, hstep, h⟩ := exists_of_bind_eq_ok h
    obtain ⟨⟨tm₂, rest'⟩, hlogic, h⟩ := exists_of_map_eq_ok h
    cases h
    intro hmem
    rcases List.mem_cons.mp hmem with heq | hmem
    · exact wordStep_ne_dashDash hstep hw.symm heq.symm
    · exact ih hlogic hrest hmem

/-- The words of the rc files and those of the command line, each read with the types that those
before them have defined, say together what they say one by one, in that order. -/
theorem parse_rcFiles {Fd : Type} {sys : ConfigSystem Fd} {env : ParseEnv} {n : Nat} {argv0 : Bytes}
    {userArgv projectArgv args userWords projectWords words n₁ n₂ n₃ : List Bytes}
    {o₁ o₂ o₃ : List (ParsedOption OptIndex)}
    (hnoenv : str "--noenv" ∉ (argv0 :: args).takeWhile (· ≠ dashDash))
    (hconfig : sys.findAndParseConfigFiles n
        (str "--test-noenv-user" ∈ (argv0 :: args).takeWhile (· ≠ dashDash)) =
      some (.ok (userArgv, projectArgv)))
    (hargv0 : wordAction tm argv0 = .skip)
    (huser : handleTYPELogic tm userArgv = .ok (tm₁, userWords))
    (hproject : handleTYPELogic tm₁ projectArgv = .ok (tm₂, projectWords))
    (hargs : handleTYPELogic tm₂ args = .ok (tm₃, words))
    (huserOptions : parseArgs dynamicUsage userWords = some (o₁, n₁))
    (hprojectOptions : parseArgs dynamicUsage projectWords = some (o₂, n₂))
    (hargsOptions : parseArgs dynamicUsage words = some (o₃, n₃)) :
    sys.parseCommandLine env tm n (argv0 :: args) =
      some (parseOptions env tm₃ (o₁ ++ o₂ ++ o₃) (n₁ ++ n₂ ++ n₃)) := by
  have hoptions := isRCOption_of_config hconfig
  have huserFree : dashDash ∉ userWords := handleTYPELogic_dashDash_not_mem huser fun hmem =>
    (hoptions _ (List.mem_append_left _ hmem)).2 rfl
  have hprojectFree : dashDash ∉ projectWords := handleTYPELogic_dashDash_not_mem hproject fun hmem =>
    (hoptions _ (List.mem_append_right _ hmem)).2 rfl
  have hfirst : wordStep tm argv0 = .ok (tm, argv0) := by rw [wordStep, hargv0]
  have hlogic : handleTYPELogic tm (combineArgv userArgv projectArgv (argv0 :: args)) =
      .ok (tm₃, argv0 :: (userWords ++ (projectWords ++ words))) := by
    rw [combineArgv, if_neg hnoenv]
    simp only [List.take_succ_cons, List.take_zero, List.drop_succ_cons, List.drop_zero,
      List.cons_append, List.nil_append, List.append_assoc, handleTYPELogic_eq, hfirst,
      handleTYPELogic_append, huser, hproject, hargs, Except.bind, Except.map]
  have hparsed : parseArgs dynamicUsage (userWords ++ (projectWords ++ words)) =
      some (o₁ ++ (o₂ ++ o₃), n₁ ++ (n₂ ++ n₃)) := by
    have hproject := (strictUsage_dynamicUsage.parseArgs_iff.mp hprojectOptions).parse_append
      strictUsage_dynamicUsage hprojectFree words
    have huser := (strictUsage_dynamicUsage.parseArgs_iff.mp huserOptions).parse_append
      strictUsage_dynamicUsage huserFree (projectWords ++ words)
    rw [huser, hproject, hargsOptions]
    rfl
  rw [ConfigSystem.parseCommandLine, if_neg hnoenv, hconfig, List.append_assoc, List.append_assoc]
  exact congrArg some (parse_of_words hlogic hparsed)

/-- The user's file says `--follow` and `-j2`, and the current directory is the root. -/
def homeSystem : ConfigSystem Unit where
  toHostSystem := { HostSystem.bareSystem (str "/") [] with homeVariable := some (str "/h") }
  readFile path := if path = str "/h/.ucgrc" then some (str "--follow\n-j2") else none

theorem parse_rcFiles_follow :
    homeSystem.parseCommandLine ⟨true, 8⟩ .new 4 [str "ucg", str "--nofollow", str "x"] =
      some (parseOptions ⟨true, 8⟩ .new
        [⟨.follow, enable, none⟩, ⟨.perfScanjobs, 0, some (str "2")⟩, ⟨.follow, disable, none⟩]
        [str "x"]) := by
  have hfollow := wordAction_new_eq_skip (str "follow") (by decide) (by decide)
  have hnofollow := wordAction_new_eq_skip (str "nofollow") (by decide) (by decide)
  have hnoenv : str "--noenv" ∉ [str "ucg", str "--nofollow", str "x"].takeWhile (· ≠ dashDash) := by
    decide
  have hconfig : homeSystem.findAndParseConfigFiles 4 false =
      some (.ok ([str "--follow", str "-j2"], [])) := by rfl
  have huser : handleTYPELogic .new [str "--follow", str "-j2"] =
      .ok (.new, [str "--follow", str "-j2"]) :=
    handleTYPELogic_of_skip (by simpa using ⟨hfollow, rfl⟩)
  have hargs : handleTYPELogic .new [str "--nofollow", str "x"] =
      .ok (.new, [str "--nofollow", str "x"]) :=
    handleTYPELogic_of_skip (by simpa using ⟨hnofollow, rfl⟩)
  have huserOptions : parseArgs dynamicUsage [str "--follow", str "-j2"] =
      some ([⟨.follow, enable, none⟩, ⟨.perfScanjobs, 0, some (str "2")⟩], []) := by decide +kernel
  have hargsOptions : parseArgs dynamicUsage [str "--nofollow", str "x"] =
      some ([⟨.follow, disable, none⟩], [str "x"]) := by decide +kernel
  exact parse_rcFiles hnoenv hconfig rfl huser rfl hargs huserOptions rfl hargsOptions

end Sources

end Ucg
