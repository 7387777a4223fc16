import Ucg.EntryTypes
import Ucg.FoundFiles

/-! What a run may search, over any file system and with symlinks followed or not. -/

namespace Ucg

open Transition

variable {D : Type*}

/-- The entry has this type as far as is known, or nothing is known of its type. -/
def DirTree.MayBe (t : DirTree) (fs : FileSystem D) (d : D) (e : Dirent) (mode : FileMode) : Prop :=
  t.knownType fs d e = some mode ∨ t.knownType fs d e = none

/-- The directories that a traversal may read, with the paths that it knows them by. -/
inductive SearchedDir (t : DirTree) (fs : FileSystem D) (startPaths : List Bytes) : Bytes → D → Prop
  | start {p : Bytes} {st : Stat} {d : D} (hp : p ∈ startPaths) (hstat : fs.stat (cleanUpPath p) = some st)
      (hmode : st.stMode = .dir) (hopen : fs.opendir (cleanUpPath p) = some d) :
      SearchedDir t fs startPaths (cleanUpPath p) d
  | entry {path : Bytes} {d d' : D} {e : Dirent} (h : SearchedDir t fs startPaths path d)
      (he : e ∈ fs.readdir d) (hdot : isDotDir e.dName = false) (htype : t.MayBe fs d e .dir)
      (hrecurse : t.recurse = true) (hfilter : t.dirBasenameFilter e.dName = false)
      (hopen : fs.opendirat d e.dName = some d') :
      SearchedDir t fs startPaths (resolvePath path e.dName) d'

inductive SearchedFile (t : DirTree) (fs : FileSystem D) (startPaths : List Bytes) : Bytes → Prop
  | start {p : Bytes} {st : Stat} (hp : p ∈ startPaths) (hstat : fs.stat (cleanUpPath p) = some st)
      (hmode : st.stMode = .reg) : SearchedFile t fs startPaths (cleanUpPath p)
  | entry {path : Bytes} {d : D} {e : Dirent} (h : SearchedDir t fs startPaths path d)
      (he : e ∈ fs.readdir d) (hdot : isDotDir e.dName = false) (htype : t.MayBe fs d e .reg)
      (hfilter : t.fileBasenameFilter e.dName = true) :
      SearchedFile t fs startPaths (resolvePath path e.dName)

section Traversal

variable {t : DirTree} {fs : FileSystem D} {startPaths : List Bytes} {dse f : FileID D} {d : D}
  {e : Dirent} {statbuf : Stat}

theorem FileID.stat_of_fileType {path : Bytes} {mode : FileMode}
    (h : (FileID.ofPath fs path).fileType = mode.fileType) :
    ∃ st, fs.stat path = some st ∧ st.stMode = mode := by
  cases hstat : fs.stat path with
  | none => cases mode <;> simp [FileID.ofPath, hstat, FileMode.fileType] at h
  | some st =>
    rw [FileID.ofPath_fileType hstat] at h
    refine ⟨st, rfl, ?_⟩
    cases hmode : st.stMode <;> cases mode <;> simp_all [FileMode.fileType]

theorem FileID.loadUniqueFileIdentifier_path {bname : Bytes} :
    (f.loadUniqueFileIdentifier fs d bname).path = f.path := by
  unfold FileID.loadUniqueFileIdentifier
  cases f.dev with
  | some dev => rfl
  | none => cases fs.fstatat d bname false <;> rfl

theorem scandirPaths_searched :
    (∀ f ∈ (scandirPaths fs startPaths).1, ∀ d, f.dir = some d → SearchedDir t fs startPaths f.path d) ∧
      ∀ f ∈ (scandirPaths fs startPaths).2, SearchedFile t fs startPaths f.path := by
  suffices hsub : ∀ paths, (∀ p ∈ paths, p ∈ startPaths) →
      (∀ f ∈ (scandirPaths fs paths).1, ∀ d, f.dir = some d → SearchedDir t fs startPaths f.path d) ∧
        ∀ f ∈ (scandirPaths fs paths).2, SearchedFile t fs startPaths f.path from
    hsub startPaths fun _ => id
  intro paths hpaths
  induction paths with
  | nil => simp [scandirPaths]
  | cons p paths ih =>
    obtain ⟨hp, hpaths⟩ := List.forall_mem_cons.mp hpaths
    obtain ⟨hdirs, hfiles⟩ := ih hpaths
    cases htype : (FileID.ofPath fs (cleanUpPath p)).fileType with
    | reg =>
      have hreg : _ = FileMode.reg.fileType := htype
      obtain ⟨st, hstat, hmode⟩ := FileID.stat_of_fileType hreg
      simp only [scandirPaths, htype]
      refine ⟨hdirs, List.forall_mem_cons.mpr ⟨?_, hfiles⟩⟩
      rw [FileID.ofPath_path]
      exact .start hp hstat hmode
    | dir =>
      have hdir : _ = FileMode.dir.fileType := htype
      obtain ⟨st, hstat, hmode⟩ := FileID.stat_of_fileType hdir
      simp only [scandirPaths, htype]
      refine ⟨List.forall_mem_cons.mpr ⟨fun d hdir => ?_, hdirs⟩, hfiles⟩
      rw [FileID.ofPath_dir] at hdir
      rw [FileID.ofPath_path]
      exact .start hp hstat hmode hdir
    | _ => simpa only [scandirPaths, htype] using ⟨hdirs, hfiles⟩

theorem mayBe_of_seenType {mode : FileMode} (h : t.seenType fs d e statbuf = some mode) :
    t.MayBe fs d e mode := by
  rcases DirTree.knownType_of_seenType h with hknown | ⟨hasks, hfails, -⟩
  · exact Or.inl hknown
  · exact Or.inr (DirTree.knownType_eq_none_iff.mpr ⟨hasks, hfails⟩)

theorem SearchedDir.of_processDirent (h : SearchedDir t fs startPaths dse.path d)
    (he : e ∈ fs.readdir d) (haction : t.processDirent fs dse d e statbuf = .dir f) {d' : D}
    (hdir : f.dir = some d') : SearchedDir t fs startPaths f.path d' := by
  obtain ⟨hdot, hseen, hrecurse, hfilter, rfl⟩ := DirTree.processDirent_eq_dir_iff.mp haction
  rw [FileID.ofEntry_dir] at hdir
  rw [FileID.ofEntry_path]
  exact .entry h he hdot (mayBe_of_seenType hseen) hrecurse hfilter hdir

theorem SearchedFile.of_processDirent (h : SearchedDir t fs startPaths dse.path d)
    (he : e ∈ fs.readdir d) (haction : t.processDirent fs dse d e statbuf = .file f) :
    SearchedFile t fs startPaths f.path := by
  obtain ⟨hdot, hseen, hfilter, rfl⟩ := DirTree.processDirent_eq_file_iff.mp haction
  rw [FileID.ofEntry_path]
  exact .entry h he hdot (mayBe_of_seenType hseen) hfilter

/-- What `ReaddirLoop` can do with a directory, whether it follows symlinks or not. -/
inductive ReaddirMove (t : DirTree) (fs : FileSystem D) :
    ReaddirState D → TraversalState D → WorkAct (FileID D) (ReaddirState D) (TraversalState D) → Prop
  | flush {dse d files w} : ReaddirMove t fs (.reading dse d [] files) w
      (.work .closing { w with outQueue := w.outQueue ++ files })
  | finish {b w} : ReaddirMove t fs b w .finish
  | pass {dse d e entries files w} :
      ReaddirMove t fs (.reading dse d (e :: entries) files) w (.work (.reading dse d entries files) w)
  | file {dse d e entries files w statbuf f} (haction : t.processDirent fs dse d e statbuf = .file f) :
      ReaddirMove t fs (.reading dse d (e :: entries) files) w
        (.work (.reading dse d entries (files ++ [f])) w)
  | pushAtOnce {dse d e entries files w statbuf f} (hfollow : t.followSymlinks = false)
      (haction : t.processDirent fs dse d e statbuf = .dir f) :
      ReaddirMove t fs (.reading dse d (e :: entries) files) w
        (.push (.value f) (.reading dse d entries files))
  | accept {dse d e entries files w statbuf f} (hfollow : t.followSymlinks = true)
      (haction : t.processDirent fs dse d e statbuf = .dir f) :
      ReaddirMove t fs (.reading dse d (e :: entries) files) w
        (.work (.pushing (f.loadUniqueFileIdentifier fs d e.dName) dse d entries files)
          { w with
            dirHasBeenVisited := w.dirHasBeenVisited.insert
              (f.loadUniqueFileIdentifier fs d e.dName).uniqueFileIdentifier })
  | push {f dse d entries files w} : ReaddirMove t fs (.pushing f dse d entries files) w
      (.push (.value f) (.reading dse d entries files))

theorem readdirStep_move {b : ReaddirState D} {w : TraversalState D}
    {a : WorkAct (FileID D) (ReaddirState D) (TraversalState D)} (h : t.readdirStep fs b w a) :
    ReaddirMove t fs b w a := by
  cases b with
  | reading dse d entries files =>
    cases entries with
    | nil =>
      rw [DirTree.readdirStep] at h
      split_ifs at h <;> subst h
      · exact .finish
      · exact .flush
    | cons e entries =>
      cases hfollow : t.followSymlinks with
      | true =>
        obtain ⟨statbuf, ⟨-, rfl⟩ | ⟨f, haction, rfl⟩ | ⟨f, -, -, rfl⟩ | ⟨f, haction, -, rfl⟩⟩ :=
          readdirStep_entry hfollow h
        · exact .pass
        · exact .file haction
        · exact .pass
        · exact .accept hfollow haction
      | false =>
        obtain ⟨statbuf, rfl⟩ := h
        cases haction : t.processDirent fs dse d e statbuf with
        | ignore => exact .pass
        | file f => exact .file haction
        | dir f =>
          rw [hfollow]
          exact .pushAtOnce hfollow haction
  | pushing f dse d entries files =>
    subst h
    exact .push
  | closing =>
    subst h
    exact .finish

/-- A worker reads a directory that may be read, and holds files of it that may be searched. -/
def ReaddirState.Searches (t : DirTree) (fs : FileSystem D) (startPaths : List Bytes) :
    ReaddirState D → Prop
  | .reading dse d entries files =>
    SearchedDir t fs startPaths dse.path d ∧ (∀ e ∈ entries, e ∈ fs.readdir d) ∧
      ∀ f ∈ files, SearchedFile t fs startPaths f.path
  | .pushing f dse d entries files =>
    (∀ d', f.dir = some d' → SearchedDir t fs startPaths f.path d') ∧
      SearchedDir t fs startPaths dse.path d ∧ (∀ e ∈ entries, e ∈ fs.readdir d) ∧
        ∀ f ∈ files, SearchedFile t fs startPaths f.path
  | .closing => True

theorem readdirLoop_maintains : Maintains (t.readdirLoop fs)
    (fun f => ∀ d, f.dir = some d → SearchedDir t fs startPaths f.path d)
    (ReaddirState.Searches t fs startPaths)
    fun w => ∀ f ∈ w.outQueue, SearchedFile t fs startPaths f.path where
  load dse hdse := by
    cases hdir : dse.dir with
    | none => simp [DirTree.readdirLoop, hdir, ReaddirState.Searches]
    | some d => simpa [DirTree.readdirLoop, hdir, ReaddirState.Searches] using hdse d hdir
  push {b next arg world} hb ha := by
    cases readdirStep_move ha with
    | pushAtOnce hfollow haction =>
      obtain ⟨hdse, hentries, hfiles⟩ := hb
      obtain ⟨he, hentries⟩ := List.forall_mem_cons.mp hentries
      refine ⟨⟨hdse, hentries, hfiles⟩, fun f hf => ?_⟩
      obtain rfl := List.mem_singleton.mp hf
      exact fun d' hdir => hdse.of_processDirent he haction hdir
    | push =>
      obtain ⟨hf, hreading⟩ := hb
      refine ⟨hreading, fun f' hf' => ?_⟩
      obtain rfl := List.mem_singleton.mp hf'
      exact hf
  work {b next world world'} hb hworld ha := by
    cases readdirStep_move ha with
    | flush => exact ⟨trivial, List.forall_mem_append.mpr ⟨hworld, hb.2.2⟩⟩
    | pass => exact ⟨⟨hb.1, (List.forall_mem_cons.mp hb.2.1).2, hb.2.2⟩, hworld⟩
    | file haction =>
      obtain ⟨hdse, hentries, hfiles⟩ := hb
      obtain ⟨he, hentries⟩ := List.forall_mem_cons.mp hentries
      have hfile := SearchedFile.of_processDirent hdse he haction
      exact ⟨⟨hdse, hentries, List.forall_mem_append.mpr ⟨hfiles, by simpa using hfile⟩⟩, hworld⟩
    | accept hfollow haction =>
      obtain ⟨hdse, hentries, hfiles⟩ := hb
      obtain ⟨he, hentries⟩ := List.forall_mem_cons.mp hentries
      refine ⟨⟨fun d' hdir => ?_, hdse, hentries, hfiles⟩, hworld⟩
      rw [FileID.loadUniqueFileIdentifier_dir] at hdir
      rw [FileID.loadUniqueFileIdentifier_path]
      exact hdse.of_processDirent he haction hdir

end Traversal

section Program

variable {dirjobs jobs : Nat} {setup : ProgramSetup D} {s : ProgramState dirjobs jobs D}

theorem outQueue_searched (h : ProgramReachable setup s) : ∀ f ∈ s.traversal.world.outQueue,
    SearchedFile setup.dirTree setup.fileSystem setup.startPaths f.path := by
  have htraversal := ProgramReachable.traversal h
  obtain ⟨hdirs, hfiles⟩ := @scandirPaths_searched D setup.dirTree setup.fileSystem setup.startPaths
  by_cases hstarting : ∃ remaining, s.main = .startPaths remaining
  · obtain ⟨remaining, hmain⟩ := hstarting
    obtain ⟨dirs, files, hs, hpaths⟩ := htraversal.starting remaining hmain
    rw [hpaths] at hfiles
    rw [hs]
    exact fun f hf => hfiles f (List.mem_append_left _ hf)
  · have hreach := htraversal.started fun remaining hmain => hstarting ⟨remaining, hmain⟩
    exact (readdirLoop_maintains.reachable hdirs hfiles hreach).world

theorem printed_searched (h : ProgramReachable setup s) {ml : MatchList}
    (hml : ml ∈ s.outputTask.printed) :
    SearchedFile setup.dirTree setup.fileSystem setup.startPaths ml.filename ∧
      setup.outcome ml.filename = .scanned ml.matchList ∧ ml.matchList ≠ [] := by
  have hpipeline := ProgramReachable.pipeline h [] fun _ => rfl
  rw [List.append_nil] at hpipeline
  have hlists := (PipelineReachable.balance hpipeline).lists
  simp only [add_assoc] at hlists
  have hexpected : ml ∈ Ucg.expectedLists (s.putOut setup) := by
    rw [← hlists]
    exact Multiset.mem_add.mpr (Or.inl (Multiset.mem_coe.mpr hml))
  obtain ⟨found, hfound, hmatches⟩ := List.mem_flatMap.mp (Multiset.mem_coe.mp hexpected)
  obtain ⟨f, hf, rfl⟩ := List.mem_map.mp hfound
  have hsearched := outQueue_searched h f hf
  cases houtcome : setup.outcome f.path with
  | scanned found =>
    cases found with
    | nil => simp [FoundFile.matchLists, ProgramSetup.found, houtcome] at hmatches
    | cons m found =>
      obtain rfl : ml = ⟨f.path, m :: found⟩ := by
        simpa [FoundFile.matchLists, ProgramSetup.found, houtcome] using hmatches
      exact ⟨hsearched, houtcome, List.cons_ne_nil m found⟩
  | _ => simp [FoundFile.matchLists, ProgramSetup.found, houtcome] at hmatches

/-- Over any file system, at any moment of any run and with symlinks followed or not: each list that
is written is that of a file that may be searched, and has all its matches. -/
theorem program_prints_searched (h : ProgramReachable setup s) : ∃ lists : List MatchList,
    s.cout = writeAll setup.outputContext false lists ∧ ∀ ml ∈ lists,
      SearchedFile setup.dirTree setup.fileSystem setup.startPaths ml.filename ∧
        setup.outcome ml.filename = .scanned ml.matchList ∧ ml.matchList ≠ [] :=
  ⟨s.outputTask.printed, (ProgramReachable.written h).cout, fun _ hml => printed_searched h hml⟩

theorem program_prints_searched_nested : ∃ (s : ProgramState 1 1 Bool) (lists : List MatchList),
    s.cout = str "d/b/c:1:2:ax\n" ∧ s.cout = writeAll nestedSetup.outputContext false lists ∧
      ∀ ml ∈ lists, SearchedFile allFiles nestedFileSystem [[100]] ml.filename := by
  obtain ⟨s, hreturned, -, hcout⟩ := nestedSetup_returns
  obtain ⟨lists, hlists, hsearched⟩ := program_prints_searched hreturned
  exact ⟨s, lists, hcout, hlists, fun ml hml => (hsearched ml hml).1⟩

end Program

end Ucg
