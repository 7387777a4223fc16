import Ucg.Ancestors
import Ucg.Lib.Iteration

/-! `GetProjectRCFilename`: the rc file of the directory nearest above the current one, and when
the search for it finds the right one. -/

namespace Ucg

open ByteOrder Iteration

/-- What the search asks of the system. A path that can be opened gives the file that it names.
The user database may have no entry for the user, and an entry may have no home directory. -/
structure HostSystem (Fd : Type) where
  homeVariable : Option Bytes
  passwdEntry : Option (Option Bytes)
  currentDir : Option Bytes
  openFile : Bytes → Option Fd
  fstat : Fd → Option DevIno
  fileAt : Bytes → Option DevIno
  fileAt_of_openFile : ∀ path fd id, openFile path = some fd → fstat fd = some id →
    fileAt path = some id

def testRCFilename (currentCwd : Bytes) : Bytes :=
  (if currentCwd.getLast? = some slash then currentCwd else currentCwd ++ [slash]) ++ str ".ucgrc"

def isRoot (currentCwd : Bytes) : Bool :=
  -- The second part is meant for DOS paths, which Cygwin may give.
  currentCwd.length = 1 ∨ currentCwd.length ≤ 4 ∧ currentCwd[1]? = some colon

namespace HostSystem

variable {Fd : Type} (sys : HostSystem Fd)

/-- `none` is a crash: the result of `getpwuid` is read without a test for null. -/
def getHomeDirName : Option Bytes :=
  match sys.homeVariable with
  | some homePath => some homePath
  | none => sys.passwdEntry.map fun pwDir => pwDir.getD []

def getCurrentDirName : Bytes := sys.currentDir.getD [dot]

def homeFd : Option Fd :=
  sys.getHomeDirName.bind fun homeDirName =>
    if homeDirName = [] then none else sys.openFile homeDirName

def isSameFile (fd1 fd2 : Fd) : Bool :=
  match sys.fstat fd1, sys.fstat fd2 with
  | some s1, some s2 => s1 = s2
  | _, _ => false

def isHomeDir (currentCwd : Bytes) : Bool :=
  match sys.homeFd, sys.openFile currentCwd with
  | some homeFd, some cwdFd => sys.isSameFile cwdFd homeFd
  -- What cannot be opened cannot be checked.
  | _, _ => false

def projectRCStep (currentCwd : Bytes) : Outcome Bytes Bytes :=
  if currentCwd = [] ∨ currentCwd.head? = some dot then .done []
  else if sys.isHomeDir currentCwd then .done []
  else if (sys.openFile (testRCFilename currentCwd)).isSome then .done (testRCFilename currentCwd)
  else if isRoot currentCwd then .done []
  else .next (dirname currentCwd)

/-- The search, after at most `n` evaluations of its loop. It asks for the home directory first. -/
def getProjectRCFilename (n : Nat) : Option (Outcome Bytes Bytes) :=
  sys.getHomeDirName.map fun _ => run sys.projectRCStep n sys.getCurrentDirName

def HasRC (dir : Bytes) : Prop := (sys.openFile (testRCFilename dir)).isSome

/-- The directory is `$HOME`, whether it can be opened or not. -/
def IsHome (dir : Bytes) : Prop :=
  ∃ home, sys.getHomeDirName = some home ∧ home ≠ [] ∧
    ∃ id, sys.fileAt home = some id ∧ sys.fileAt dir = some id

/-- The deepest directory on the way up that has a config file. -/
structure IsNearestRC (cwd dir : Bytes) : Prop where
  ancestor : IsAncestor cwd dir
  hasRC : sys.HasRC dir
  deepest : ∀ other, IsAncestor cwd other → sys.HasRC other → other <+: dir

/-- The other directory lies on the way from the current one up to the given one. -/
def IsPassed (cwd dir other : Bytes) : Prop := IsAncestor cwd other ∧ dir <+: other

/-- What the search is to return. -/
inductive IsProjectRC (cwd : Bytes) : Bytes → Prop
  | found {dir : Bytes} (hnearest : sys.IsNearestRC cwd dir)
      (hhome : ∀ other, IsPassed cwd dir other → ¬ sys.IsHome other) :
      IsProjectRC cwd (testRCFilename dir)
  | none (h : ∀ dir, sys.IsNearestRC cwd dir → ∃ other, IsPassed cwd dir other ∧ sys.IsHome other) :
      IsProjectRC cwd []

/-- The search comes to an end with what it is to return. -/
def FindsProjectRC : Prop :=
  ∃ n rc, sys.getProjectRCFilename n = some (.done rc) ∧ sys.IsProjectRC sys.getCurrentDirName rc

/-- The way up to a root of two slashes meets something that ends the search. -/
def Ends (cwd : Bytes) : Prop :=
  (leadingSlashes cwd).length = 2 →
    ∃ dir, IsAncestor cwd dir ∧ (sys.HasRC dir ∨ sys.isHomeDir dir = true)

/-- The conditions that the search relies on. -/
structure IsSearchable (cwd : Bytes) : Prop where
  /-- Without `$HOME` the user database has an entry for the user. -/
  listed : sys.homeVariable = none → sys.passwdEntry ≠ none
  ends : sys.Ends cwd
  /-- No directory before the one to be found looks like a DOS root. -/
  reached : ∀ dir, sys.IsNearestRC cwd dir → (∀ other, IsPassed cwd dir other → ¬ sys.IsHome other) →
    ∀ other, IsPassed cwd dir other → other ≠ dir → isRoot other = false
  /-- Where `$HOME` forbids the config file, it is known for `$HOME`, or the search does not get
  that far. -/
  known : ∀ dir, sys.IsNearestRC cwd dir → (∃ other, IsPassed cwd dir other ∧ sys.IsHome other) →
    ∃ other, IsPassed cwd dir other ∧
      (sys.isHomeDir other = true ∨ other ≠ dir ∧ isRoot other = true)

structure IsFound (cwd dir : Bytes) : Prop where
  nearest : sys.IsNearestRC cwd dir
  notHome : ∀ other, IsPassed cwd dir other → sys.isHomeDir other = false
  notRoot : ∀ other, IsPassed cwd dir other → other ≠ dir → isRoot other = false

def IsReturned (cwd rc : Bytes) : Prop :=
  (∃ dir, sys.IsFound cwd dir ∧ rc = testRCFilename dir) ∨ (∀ dir, ¬ sys.IsFound cwd dir) ∧ rc = []

variable {sys} {cwd dir x y rc : Bytes}

theorem testRCFilename_ne_nil (dir : Bytes) : testRCFilename dir ≠ [] :=
  List.append_ne_nil_of_right_ne_nil _ (by decide)

theorem isHome_of_isHomeDir (h : sys.isHomeDir dir = true) : sys.IsHome dir := by
  rw [isHomeDir] at h
  split at h
  case h_2 => simp at h
  case h_1 homeFd cwdFd hhome hcwd =>
    rw [isSameFile] at h
    split at h
    case h_2 => simp at h
    case h_1 s1 s2 hs1 hs2 =>
      obtain rfl : s1 = s2 := by simpa using h
      obtain ⟨home, hname, hopen⟩ := Option.bind_eq_some_iff.mp hhome
      split_ifs at hopen with hempty
      exact ⟨home, hname, hempty, s1, sys.fileAt_of_openFile _ _ _ hopen hs2,
        sys.fileAt_of_openFile _ _ _ hcwd hs1⟩

theorem IsNearestRC.unique (h : sys.IsNearestRC cwd x) (h' : sys.IsNearestRC cwd y) : x = y :=
  (h'.deepest x h.ancestor h.hasRC).eq_of_length_le
    (h.deepest y h'.ancestor h'.hasRC).length_le

theorem isNearestRC_self (hcwd : isPathnameAbsolute cwd = true) (h : sys.HasRC cwd) :
    sys.IsNearestRC cwd cwd :=
  ⟨IsAncestor.self, h, fun _ hother _ => hother.isPrefix hcwd⟩

theorem isNearestRC_iff (hparent : IsParent cwd dir) (h : ¬ sys.HasRC cwd) :
    sys.IsNearestRC cwd x ↔ sys.IsNearestRC dir x := by
  constructor
  · rintro ⟨hancestor, hrc, hdeepest⟩
    refine ⟨(hparent.isAncestor_iff.mp hancestor).resolve_left ?_, hrc, fun other hother =>
      hdeepest other (hparent.isAncestor_above hother)⟩
    rintro rfl
    exact h hrc
  · rintro ⟨hancestor, hrc, hdeepest⟩
    refine ⟨hparent.isAncestor_above hancestor, hrc, fun other hother hhas => ?_⟩
    rcases hparent.isAncestor_iff.mp hother with rfl | hother
    · exact absurd hhas h
    · exact hdeepest other hother hhas

theorem isFound_iff (hparent : IsParent cwd dir) (hrc : ¬ sys.HasRC cwd)
    (hhome : sys.isHomeDir cwd = false) (hroot : isRoot cwd = false) :
    sys.IsFound cwd x ↔ sys.IsFound dir x := by
  constructor
  · rintro ⟨hnearest, hnotHome, hnotRoot⟩
    exact ⟨(isNearestRC_iff hparent hrc).mp hnearest,
      fun other hother => hnotHome other (hother.imp_left hparent.isAncestor_above),
      fun other hother => hnotRoot other (hother.imp_left hparent.isAncestor_above)⟩
  · rintro ⟨hnearest, hnotHome, hnotRoot⟩
    refine ⟨(isNearestRC_iff hparent hrc).mpr hnearest, fun other hother => ?_,
      fun other hother hne => ?_⟩
    · rcases hparent.isAncestor_iff.mp hother.1 with rfl | hancestor
      · exact hhome
      · exact hnotHome other ⟨hancestor, hother.2⟩
    · rcases hparent.isAncestor_iff.mp hother.1 with rfl | hancestor
      · exact hroot
      · exact hnotRoot other ⟨hancestor, hother.2⟩ hne

structure GoesUp (sys : HostSystem Fd) (cwd dir : Bytes) : Prop where
  absolute : isPathnameAbsolute dir = true
  parent : IsParent cwd dir
  noRC : ¬ sys.HasRC cwd
  notHome : sys.isHomeDir cwd = false
  notRoot : isRoot cwd = false

theorem isReturned_self (hcwd : isPathnameAbsolute cwd = true) (hrc : sys.HasRC cwd)
    (hhome : sys.isHomeDir cwd = false) : sys.IsReturned cwd (testRCFilename cwd) := by
  have hself {other : Bytes} (hother : IsPassed cwd cwd other) : other = cwd :=
    (hother.1.isPrefix hcwd).eq_of_length_le hother.2.length_le
  refine Or.inl ⟨cwd, ⟨isNearestRC_self hcwd hrc, fun other hother => ?_, fun other hother hne => ?_⟩, rfl⟩
  · rwa [hself hother]
  · exact absurd (hself hother) hne

theorem isReturned_of_isHomeDir (hcwd : isPathnameAbsolute cwd = true)
    (hhome : sys.isHomeDir cwd = true) : sys.IsReturned cwd [] := by
  refine Or.inr ⟨fun dir hfound => ?_, rfl⟩
  have hpassed : IsPassed cwd dir cwd :=
    ⟨IsAncestor.self, hfound.nearest.ancestor.isPrefix hcwd⟩
  simp [hfound.notHome cwd hpassed] at hhome

theorem isReturned_of_isRoot (hcwd : isPathnameAbsolute cwd = true) (hrc : ¬ sys.HasRC cwd)
    (hroot : isRoot cwd = true) : sys.IsReturned cwd [] := by
  refine Or.inr ⟨fun dir hfound => ?_, rfl⟩
  have hpassed : IsPassed cwd dir cwd :=
    ⟨IsAncestor.self, hfound.nearest.ancestor.isPrefix hcwd⟩
  have hne : cwd ≠ dir := by
    rintro rfl
    exact hrc hfound.nearest.hasRC
  simp [hfound.notRoot cwd hpassed hne] at hroot

theorem not_leaves_of_absolute (hcwd : isPathnameAbsolute cwd = true) :
    ¬ (cwd = [] ∨ cwd.head? = some dot) := by
  obtain ⟨rest, rfl⟩ := absolute_cons hcwd
  simp [slash, dot]

theorem projectRCStep_holds (hcwd : isPathnameAbsolute cwd = true) :
    (sys.projectRCStep cwd).Holds (GoesUp sys cwd) (sys.IsReturned cwd) := by
  rw [projectRCStep, if_neg (not_leaves_of_absolute hcwd)]
  cases hhome : sys.isHomeDir cwd with
  | true => exact isReturned_of_isHomeDir hcwd hhome
  | false =>
    rw [if_neg Bool.false_ne_true]
    by_cases hrc : (sys.openFile (testRCFilename cwd)).isSome = true
    · rw [if_pos hrc]
      exact isReturned_self hcwd hrc hhome
    rw [if_neg hrc]
    cases hroot : isRoot cwd with
    | true => exact isReturned_of_isRoot hcwd hrc hroot
    | false =>
      have hparent := isParent_dirname hcwd
      rw [if_neg Bool.false_ne_true]
      exact ⟨absolute_of_isPrefix hcwd (hparent.isAncestor.isPrefix hcwd) hparent.ne_nil, hparent,
        hrc, hhome, hroot⟩

theorem length_leadingSlashes_parent (hparent : IsParent cwd dir) :
    (leadingSlashes dir).length = 2 ↔ (leadingSlashes cwd).length = 2 := by
  rw [← length_rootForm, hparent.rootForm_leadingSlashes, length_rootForm]

theorem GoesUp.ends (h : GoesUp sys cwd dir) (hends : sys.Ends cwd) : sys.Ends dir := by
  intro htwo
  obtain ⟨other, hother, hstop⟩ := hends ((length_leadingSlashes_parent h.parent).mp htwo)
  refine ⟨other, (h.parent.isAncestor_iff.mp hother).resolve_left ?_, hstop⟩
  rintro rfl
  rcases hstop with hrc | hhome
  · exact h.noRC hrc
  · exact absurd (h.notHome.symm.trans hhome) Bool.false_ne_true

theorem GoesUp.length_lt (h : GoesUp sys cwd dir) (hends : sys.Ends cwd) :
    dir.length < cwd.length := by
  refine h.parent.length_lt fun hroot => ?_
  have hnotRoot := h.notRoot
  by_cases htwo : (leadingSlashes cwd).length = 2
  · obtain ⟨other, hother, hstop⟩ := hends htwo
    have hsame := hother.eq_of_root hroot
    rw [hsame] at hstop
    rcases hstop with hrc | hhome
    · exact h.noRC hrc
    · exact absurd (h.notHome.symm.trans hhome) Bool.false_ne_true
  · rw [rootForm, if_neg htwo] at hroot
    rw [← hroot] at hnotRoot
    exact absurd hnotRoot (by decide)

theorem search_terminates (hcwd : isPathnameAbsolute cwd = true) (hends : sys.Ends cwd) :
    ∃ n rc, run sys.projectRCStep n cwd = .done rc ∧ sys.IsReturned cwd rc := by
  have hstep : ∀ s, isPathnameAbsolute s = true ∧ sys.Ends s ∧
      (∀ dir, sys.IsFound cwd dir ↔ sys.IsFound s dir) →
      (sys.projectRCStep s).Holds
        (fun t => (isPathnameAbsolute t = true ∧ sys.Ends t ∧
          ∀ dir, sys.IsFound cwd dir ↔ sys.IsFound t dir) ∧ t.length < s.length)
        (sys.IsReturned cwd) := by
    rintro s ⟨habsolute, hends, hfound⟩
    refine (projectRCStep_holds habsolute).mono (fun t h => ?_) fun rc h => ?_
    · refine ⟨⟨h.absolute, h.ends hends, fun dir => (hfound dir).trans ?_⟩, h.length_lt hends⟩
      exact isFound_iff h.parent h.noRC h.notHome h.notRoot
    · simpa only [IsReturned, hfound] using h
  obtain ⟨rc, hrun, hrc⟩ := terminates_of_measure List.length hstep ⟨hcwd, hends, fun _ => Iff.rfl⟩
  exact ⟨_, rc, hrun, hrc⟩

theorem isRoot_of_two_slashes (h : (leadingSlashes cwd).length = 2) : isRoot cwd = false := by
  obtain ⟨c, c', hslashes⟩ := List.length_eq_two.mp h
  have hall := isSlashes_leadingSlashes cwd
  obtain ⟨rest, hcwd⟩ := List.takeWhile_prefix (l := cwd) (· = slash)
  rw [leadingSlashes] at hslashes hall
  rw [hslashes] at hcwd hall
  rw [← hcwd, hall c' (by simp)]
  simp [isRoot, slash, colon]

theorem not_terminates (hcwd : isPathnameAbsolute cwd = true) (hends : ¬ sys.Ends cwd) :
    ¬ Terminates sys.projectRCStep cwd := by
  have hstep : ∀ s, isPathnameAbsolute s = true ∧ ¬ sys.Ends s →
      (sys.projectRCStep s).Holds (fun t => isPathnameAbsolute t = true ∧ ¬ sys.Ends t)
        (fun _ => False) := by
    rintro s ⟨habsolute, hends⟩
    obtain ⟨htwo, hnone⟩ := Classical.not_imp.mp hends
    -- No string on the way is as short as the root that the loop tests for: the way ends at `//`.
    have hparent := isParent_dirname habsolute
    have hrc : ¬ (sys.openFile (testRCFilename s)).isSome = true := fun h => hnone ⟨s, IsAncestor.self, Or.inl h⟩
    have hhome : ¬ sys.isHomeDir s = true := fun h => hnone ⟨s, IsAncestor.self, Or.inr h⟩
    have hroot : ¬ isRoot s = true := by simp [isRoot_of_two_slashes htwo]
    rw [projectRCStep, if_neg (not_leaves_of_absolute habsolute), if_neg hhome, if_neg hrc,
      if_neg hroot]
    refine ⟨absolute_of_isPrefix habsolute (hparent.isAncestor.isPrefix habsolute) hparent.ne_nil,
      fun hparentEnds => ?_⟩
    obtain ⟨other, hother, hstop⟩ :=
      hparentEnds ((length_leadingSlashes_parent hparent).mpr htwo)
    exact hnone ⟨other, hparent.isAncestor_above hother, hstop⟩
  exact not_terminates_of_closed hstep ⟨hcwd, hends⟩

theorem IsProjectRC.eq_of_found (h : sys.IsProjectRC cwd rc) (hnearest : sys.IsNearestRC cwd dir)
    (hhome : ∀ other, IsPassed cwd dir other → ¬ sys.IsHome other) : rc = testRCFilename dir := by
  cases h with
  | found hnearest' hhome' => rw [hnearest.unique hnearest']
  | none hnone =>
    obtain ⟨other, hother, his⟩ := hnone dir hnearest
    exact absurd his (hhome other hother)

theorem IsProjectRC.eq_of_home (h : sys.IsProjectRC cwd rc) (hnearest : sys.IsNearestRC cwd dir)
    (hhome : ∃ other, IsPassed cwd dir other ∧ sys.IsHome other) : rc = [] := by
  cases h with
  | found hnearest' hhome' =>
    obtain ⟨other, hother, his⟩ := hhome
    rw [hnearest.unique hnearest'] at hother
    exact absurd his (hhome' other hother)
  | none => rfl

theorem IsReturned.isFound (h : sys.IsReturned cwd rc) (hrc : rc ≠ [])
    (hnearest : sys.IsNearestRC cwd dir) : sys.IsFound cwd dir := by
  rcases h with ⟨dir', hfound, _⟩ | ⟨_, hnil⟩
  · rwa [hnearest.unique hfound.nearest]
  · exact absurd hnil hrc

theorem IsReturned.eq_of_isFound (h : sys.IsReturned cwd rc) (hfound : sys.IsFound cwd dir) :
    rc = testRCFilename dir := by
  rcases h with ⟨dir', hfound', hrc⟩ | ⟨hnone, _⟩
  · rw [hrc, hfound.nearest.unique hfound'.nearest]
  · exact absurd hfound (hnone dir)

theorem getHomeDirName_isSome :
    sys.getHomeDirName.isSome = true ↔ (sys.homeVariable = none → sys.passwdEntry ≠ none) := by
  rw [getHomeDirName]
  cases sys.homeVariable with
  | some homePath => simp
  | none => simp [Option.isSome_iff_ne_none]

theorem getProjectRCFilename_eq_done {n : Nat} :
    sys.getProjectRCFilename n = some (.done rc) ↔
      (sys.homeVariable = none → sys.passwdEntry ≠ none) ∧
        run sys.projectRCStep n sys.getCurrentDirName = .done rc := by
  rw [← getHomeDirName_isSome, getProjectRCFilename]
  cases sys.getHomeDirName <;> simp

theorem IsReturned.isSearchable (h : sys.IsReturned cwd rc)
    (hlisted : sys.homeVariable = none → sys.passwdEntry ≠ none) (hends : sys.Ends cwd)
    (hproject : sys.IsProjectRC cwd rc) : sys.IsSearchable cwd := by
  refine ⟨hlisted, hends, fun dir hnearest hhome => ?_, fun dir hnearest hhome => ?_⟩
  · have hrc := hproject.eq_of_found hnearest hhome
    exact (h.isFound (hrc ▸ testRCFilename_ne_nil dir) hnearest).notRoot
  · by_contra hnone
    have hfound : sys.IsFound cwd dir := by
      refine ⟨hnearest, fun other hother => ?_, fun other hother hne => ?_⟩
      · exact Bool.eq_false_iff.mpr fun his => hnone ⟨other, hother, Or.inl his⟩
      · exact Bool.eq_false_iff.mpr fun his => hnone ⟨other, hother, Or.inr ⟨hne, his⟩⟩
    have hrc := hproject.eq_of_home hnearest hhome
    exact testRCFilename_ne_nil dir ((h.eq_of_isFound hfound).symm.trans hrc)

theorem IsSearchable.isProjectRC (h : sys.IsSearchable cwd) (hreturned : sys.IsReturned cwd rc) :
    sys.IsProjectRC cwd rc := by
  rcases hreturned with ⟨dir, hfound, rfl⟩ | ⟨hnone, rfl⟩
  · refine IsProjectRC.found hfound.nearest fun home hpassed hhome => ?_
    obtain ⟨other, hother, his | ⟨hne, his⟩⟩ := h.known dir hfound.nearest ⟨home, hpassed, hhome⟩
    · exact absurd ((hfound.notHome other hother).symm.trans his) Bool.false_ne_true
    · exact absurd ((hfound.notRoot other hother hne).symm.trans his) Bool.false_ne_true
  · refine IsProjectRC.none fun dir hnearest => ?_
    by_contra hhome
    have hpassed : ∀ other, IsPassed cwd dir other → ¬ sys.IsHome other := fun other hother his =>
      hhome ⟨other, hother, his⟩
    exact hnone dir ⟨hnearest, fun other hother => Bool.eq_false_iff.mpr fun his =>
      hpassed other hother (isHome_of_isHomeDir his), h.reached dir hnearest hpassed⟩

/-- The search ends with the right config file if and only if the conditions that it relies on
hold. -/
theorem findsProjectRC_iff (hcwd : isPathnameAbsolute sys.getCurrentDirName = true) :
    sys.FindsProjectRC ↔ sys.IsSearchable sys.getCurrentDirName := by
  constructor
  · rintro ⟨n, rc, hsearch, hproject⟩
    obtain ⟨hlisted, hrun⟩ := getProjectRCFilename_eq_done.mp hsearch
    have hends : sys.Ends sys.getCurrentDirName := by
      by_contra hends
      exact not_terminates hcwd hends ⟨n, rc, hrun⟩
    obtain ⟨m, rc', hrun', hreturned⟩ := search_terminates hcwd hends
    rw [run_done_unique hrun' hrun] at hreturned
    exact hreturned.isSearchable hlisted hends hproject
  · intro h
    obtain ⟨n, rc, hrun, hreturned⟩ := search_terminates hcwd h.ends
    exact ⟨n, rc, getProjectRCFilename_eq_done.mpr ⟨h.listed, hrun⟩, h.isProjectRC hreturned⟩

/-- `$HOME` is the empty string. -/
def bareSystem (cwd file : Bytes) : HostSystem Unit where
  homeVariable := some []
  passwdEntry := none
  currentDir := some cwd
  openFile path := if path = file then some () else none
  fstat _ := none
  fileAt _ := none
  fileAt_of_openFile _ _ _ _ h := by simp at h

theorem findsProjectRC_iff_parent :
    let sys := bareSystem (str "/a/b") (str "/a/.ucgrc")
    isPathnameAbsolute sys.getCurrentDirName = true ∧
      (sys.FindsProjectRC ↔ sys.IsSearchable sys.getCurrentDirName) :=
  ⟨by decide, findsProjectRC_iff (by decide)⟩

/-- Without a config file `dirname` leads from `//x` to `//` and stays there. -/
theorem not_findsProjectRC_twoSlashes : ¬ (bareSystem (str "//x") []).FindsProjectRC := by
  rintro ⟨n, rc, hsearch, _⟩
  obtain ⟨_, hrun⟩ := getProjectRCFilename_eq_done.mp hsearch
  refine not_terminates (by decide) (fun hends => ?_) ⟨n, rc, hrun⟩
  obtain ⟨dir, _, hrc | hhome⟩ := hends (by decide)
  · have hopen : (bareSystem (str "//x") []).openFile (testRCFilename dir) = none :=
      if_neg (testRCFilename_ne_nil dir)
    rw [HasRC, hopen] at hrc
    exact absurd hrc Bool.false_ne_true
  · exact absurd hhome Bool.false_ne_true

end HostSystem

end Ucg
