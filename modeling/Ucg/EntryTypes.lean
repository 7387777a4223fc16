import Ucg.FollowedTraversal
import Ucg.Traversal

/-! What is known of the type of an entry that `ProcessDirent` queues. A `fstatat` that fails
leaves the type that the uninitialised buffer holds. -/

namespace Ucg

variable {D : Type*}

def DType.fileMode : DType → Option FileMode
  | .reg => some .reg
  | .dir => some .dir
  | .lnk => some .lnk
  | .unknown => none
  | .other => some .other

namespace DirTree

/-- The entries that `ProcessDirent` calls `FStatAt` for. -/
def asksStat (t : DirTree) (e : Dirent) : Bool :=
  e.dType == .unknown || (t.followSymlinks && e.dType == .lnk)

/-- The type of an entry as `readdir` reports it, or as a `fstatat` finds it, which follows the
links when the traversal does. `none` is a type that nothing is known of. -/
def knownType (t : DirTree) (fs : FileSystem D) (d : D) (e : Dirent) : Option FileMode :=
  if t.asksStat e then (fs.fstatat d e.dName (!t.followSymlinks)).map (·.stMode)
  else e.dType.fileMode

/-- All of `ProcessDirent`, with the check for visited directories. -/
def processEntry (t : DirTree) (fs : FileSystem D) (dse : FileID D) (d : D) (e : Dirent)
    (statbuf : Stat) (visited : List DevIno) : DirentAction D :=
  match t.processDirent fs dse d e statbuf with
  | .ignore => .ignore
  | .file f => .file f
  | .dir f =>
    if t.followSymlinks then
      let f := f.loadUniqueFileIdentifier fs d e.dName
      if (hasDirBeenVisited visited f.uniqueFileIdentifier).1 then .ignore else .dir f
    else .dir f

def entryAct (t : DirTree) (dse : FileID D) (d : D) (entries : List Dirent)
    (files : List (FileID D)) (w : TraversalState D) :
    DirentAction D → WorkAct (FileID D) (ReaddirState D) (TraversalState D)
  | .ignore => .work (.reading dse d entries files) w
  | .file f => .work (.reading dse d entries (files ++ [f])) w
  | .dir f =>
    if t.followSymlinks then
      .work (.pushing f dse d entries files)
        { w with dirHasBeenVisited := w.dirHasBeenVisited.insert f.uniqueFileIdentifier }
    else .push (.value f) (.reading dse d entries files)

variable {t : DirTree} {fs : FileSystem D} {dse : FileID D} {d : D} {e : Dirent} {statbuf : Stat}
  {visited : List DevIno} {f : FileID D}

theorem readdirStep_processEntry {entries : List Dirent} {files : List (FileID D)}
    {w : TraversalState D} {a : WorkAct (FileID D) (ReaddirState D) (TraversalState D)} :
    t.readdirStep fs (.reading dse d (e :: entries) files) w a ↔ ∃ statbuf,
      a = t.entryAct dse d entries files w
        (t.processEntry fs dse d e statbuf w.dirHasBeenVisited) := by
  refine exists_congr fun statbuf => ?_
  rw [processEntry]
  cases haction : t.processDirent fs dse d e statbuf with
  | ignore => rfl
  | file f => rfl
  | dir f =>
    by_cases hfollow : t.followSymlinks = true
    · by_cases hvisited : (f.loadUniqueFileIdentifier fs d e.dName).uniqueFileIdentifier ∈
          w.dirHasBeenVisited
      · simp [hfollow, hasDirBeenVisited, hvisited, entryAct]
      · simp [hfollow, hasDirBeenVisited, hvisited, entryAct]
    · simp [hfollow, entryAct]

/-- The buffer behind `statbuff_ptr`, which is null where no `fstatat` is called. -/
def statbuffPtr (t : DirTree) (fs : FileSystem D) (d : D) (e : Dirent) (statbuf : Stat) :
    Option Stat :=
  if t.asksStat e then some ((fs.fstatat d e.dName (!t.followSymlinks)).getD statbuf) else none

/-- The type that the code goes by: where a `fstatat` fails, what the buffer holds. -/
def seenType (t : DirTree) (fs : FileSystem D) (d : D) (e : Dirent) (statbuf : Stat) :
    Option FileMode :=
  ((t.statbuffPtr fs d e statbuf).map (·.stMode)).or e.dType.fileMode

theorem seenType_of_known {mode : FileMode} (h : t.knownType fs d e = some mode) :
    t.seenType fs d e statbuf = some mode := by
  unfold knownType at h
  unfold seenType statbuffPtr
  by_cases hasks : t.asksStat e = true
  · rw [if_pos hasks] at h ⊢
    obtain ⟨st, hst, rfl⟩ := Option.map_eq_some_iff.mp h
    rw [hst]
    rfl
  · rw [if_neg hasks] at h ⊢
    exact h

theorem knownType_eq_none_iff : t.knownType fs d e = none ↔
    t.asksStat e = true ∧ fs.fstatat d e.dName (!t.followSymlinks) = none := by
  unfold knownType
  by_cases hasks : t.asksStat e = true
  · simp [hasks]
  · rw [if_neg hasks, iff_false_right fun h => hasks h.1]
    cases htype : e.dType <;> simp [DType.fileMode]
    simp [asksStat, htype] at hasks

theorem processDirent_of_seenType (hdot : isDotDir e.dName = false) :
    t.processDirent fs dse d e statbuf =
      t.queueDirent fs dse d e (t.seenType fs d e statbuf == some .reg)
        (t.seenType fs d e statbuf == some .dir) false (t.statbuffPtr fs d e statbuf) := by
  by_cases hasks : t.asksStat e = true
  · have hcared : (!(e.dType == .reg) && !(e.dType == .dir) && !(e.dType == .lnk) &&
        !(e.dType == .unknown)) = false := by
      cases htype : e.dType <;> simp_all [asksStat]
    rw [seenType, statbuffPtr, if_pos hasks]
    generalize hst : (fs.fstatat d e.dName (!t.followSymlinks)).getD statbuf = st
    rw [asksStat] at hasks
    simp only [processDirent, hcared, hdot, hasks, hst, if_true, Option.map_some]
    cases st.stMode <;> simp [queueDirent]
  · rw [seenType, statbuffPtr, if_neg hasks]
    rw [asksStat] at hasks
    simp only [processDirent, hdot, hasks]
    cases htype : e.dType <;> simp_all [DType.fileMode, queueDirent]

/-- The entry is put into no queue but that of what is known of it. -/
def QueuedAsKnown (t : DirTree) (fs : FileSystem D) (dse : FileID D) (d : D) (e : Dirent)
    (visited : List DevIno) : DirentAction D → Prop
  | .ignore => True
  | .file f => f.path = resolvePath dse.path e.dName ∧ t.knownType fs d e = some .reg ∧
      t.fileBasenameFilter e.dName = true
  | .dir f => f.path = resolvePath dse.path e.dName ∧ t.knownType fs d e = some .dir ∧
      t.recurse = true ∧ t.dirBasenameFilter e.dName = false ∧
        (t.followSymlinks = true → f.uniqueFileIdentifier ∉ visited)

/-- The identifier of a directory, of which the buffer gives what `readdir` has not. -/
def bufferIdent (dse : FileID D) (e : Dirent) (statbuf : Stat) : DevIno :=
  match dse.dev with
  | some dev => if e.dIno ≠ 0 then ⟨dev, e.dIno⟩ else statbuf.devIno
  | none => statbuf.devIno

/-- The `fstatat` fails, and the buffer happens to hold the mode of something to be queued. -/
def MisledByBuffer (t : DirTree) (fs : FileSystem D) (dse : FileID D) (d : D) (e : Dirent)
    (statbuf : Stat) (visited : List DevIno) : Prop :=
  t.asksStat e = true ∧ fs.fstatat d e.dName (!t.followSymlinks) = none ∧
    isDotDir e.dName = false ∧
    (statbuf.stMode = .reg ∧ t.fileBasenameFilter e.dName = true ∨
      statbuf.stMode = .dir ∧ t.recurse = true ∧ t.dirBasenameFilter e.dName = false ∧
        (t.followSymlinks = true → bufferIdent dse e statbuf ∉ visited))

theorem processDirent_eq_file_iff : t.processDirent fs dse d e statbuf = .file f ↔
    isDotDir e.dName = false ∧ t.seenType fs d e statbuf = some .reg ∧
      t.fileBasenameFilter e.dName = true ∧
      f = .ofEntry fs dse d e.dName (t.statbuffPtr fs d e statbuf) .reg e.dIno := by
  by_cases hdot : isDotDir e.dName = true
  · simp [processDirent_of_isDotDir hdot, hdot]
  · rw [Bool.not_eq_true] at hdot
    rw [processDirent_of_seenType hdot, queueDirent]
    by_cases hreg : t.seenType fs d e statbuf = some .reg
    · by_cases hfilter : t.fileBasenameFilter e.dName = true
      · simp [hdot, hreg, hfilter, eq_comm]
      · simp [hreg, hfilter]
    · have hfile : (t.seenType fs d e statbuf == some .reg) = false := by simpa using hreg
      rw [hfile]
      simp only [hreg, false_and, and_false, iff_false]
      split_ifs <;> simp_all

theorem processDirent_eq_dir_iff : t.processDirent fs dse d e statbuf = .dir f ↔
    isDotDir e.dName = false ∧ t.seenType fs d e statbuf = some .dir ∧ t.recurse = true ∧
      t.dirBasenameFilter e.dName = false ∧
      f = .ofEntry fs dse d e.dName (t.statbuffPtr fs d e statbuf) .dir e.dIno := by
  by_cases hdot : isDotDir e.dName = true
  · simp [processDirent_of_isDotDir hdot, hdot]
  · rw [Bool.not_eq_true] at hdot
    rw [processDirent_of_seenType hdot, queueDirent]
    by_cases hreg : t.seenType fs d e statbuf = some .reg
    · by_cases hfilter : t.fileBasenameFilter e.dName = true <;> simp [hreg, hfilter]
    · have hfile : (t.seenType fs d e statbuf == some .reg) = false := by simpa using hreg
      rw [hfile]
      by_cases hdir : t.seenType fs d e statbuf = some .dir
      · cases hrecurse : t.recurse <;> cases hexclude : t.dirBasenameFilter e.dName <;>
          simp [hdot, hdir, eq_comm]
      · simp [hdir]

theorem seenType_of_failed (hasks : t.asksStat e = true)
    (hfails : fs.fstatat d e.dName (!t.followSymlinks) = none) :
    t.seenType fs d e statbuf = some statbuf.stMode := by
  simp [seenType, statbuffPtr, hasks, hfails]

theorem knownType_of_seenType {mode : FileMode} (h : t.seenType fs d e statbuf = some mode) :
    t.knownType fs d e = some mode ∨
      t.asksStat e = true ∧ fs.fstatat d e.dName (!t.followSymlinks) = none ∧
        statbuf.stMode = mode := by
  cases hknown : t.knownType fs d e with
  | none =>
    obtain ⟨hasks, hfails⟩ := knownType_eq_none_iff.mp hknown
    rw [seenType_of_failed hasks hfails, Option.some.injEq] at h
    exact Or.inr ⟨hasks, hfails, h⟩
  | some known =>
    rw [seenType_of_known hknown] at h
    exact Or.inl h

theorem loaded_uniqueFileIdentifier_of_stat :
    ((FileID.ofEntry fs dse d e.dName (some statbuf) .dir
      e.dIno).loadUniqueFileIdentifier fs d e.dName).uniqueFileIdentifier =
      bufferIdent dse e statbuf := by
  have hstat (h : dse.dev = none ∨ e.dIno = 0) :
      ((FileID.ofEntry fs dse d e.dName (some statbuf) .dir
        e.dIno).loadUniqueFileIdentifier fs d e.dName).uniqueFileIdentifier = statbuf.devIno := by
    rw [FileID.loadUniqueFileIdentifier_of_dev (FileID.ofEntry_of_stat h).1,
      (FileID.ofEntry_of_stat h).2]
  rw [bufferIdent]
  cases hdev : dse.dev with
  | none => exact hstat (Or.inl hdev)
  | some dev =>
    by_cases hino : e.dIno = 0
    · simpa [hino] using hstat (Or.inr hino)
    · rw [FileID.loadUniqueFileIdentifier_of_dev (FileID.ofEntry_of_dev hdev hino).1,
        (FileID.ofEntry_of_dev hdev hino).2]
      simp [hino]

theorem processEntry_eq_file_iff : t.processEntry fs dse d e statbuf visited = .file f ↔
    t.processDirent fs dse d e statbuf = .file f := by
  rw [processEntry]
  cases haction : t.processDirent fs dse d e statbuf with
  | ignore => simp
  | file g => simp
  | dir g =>
    by_cases hvisited : (g.loadUniqueFileIdentifier fs d e.dName).uniqueFileIdentifier ∈ visited <;>
      by_cases hfollow : t.followSymlinks = true <;> simp [hasDirBeenVisited, hvisited, hfollow]

theorem processEntry_eq_dir_iff : t.processEntry fs dse d e statbuf visited = .dir f ↔
    ∃ g, t.processDirent fs dse d e statbuf = .dir g ∧
      f = (if t.followSymlinks then g.loadUniqueFileIdentifier fs d e.dName else g) ∧
      (t.followSymlinks = true → f.uniqueFileIdentifier ∉ visited) := by
  rw [processEntry]
  cases haction : t.processDirent fs dse d e statbuf with
  | ignore => simp
  | file g => simp
  | dir g =>
    by_cases hfollow : t.followSymlinks = true
    · simp only [hfollow, if_true, hasDirBeenVisited, List.contains_iff_mem, forall_const]
      split_ifs with hvisited
      · refine iff_of_false (by simp) ?_
        rintro ⟨g, hg, rfl, hnot⟩
        cases hg
        exact hnot hvisited
      · constructor
        · intro hf
          cases hf
          exact ⟨g, rfl, rfl, hvisited⟩
        · rintro ⟨g, hg, rfl, -⟩
          cases hg
          rfl
    · simp [hfollow, eq_comm]

theorem loadUniqueFileIdentifier_path (f : FileID D) (name : Bytes) :
    (f.loadUniqueFileIdentifier fs d name).path = f.path := by
  rw [FileID.loadUniqueFileIdentifier]
  cases f.dev with
  | some dev => rfl
  | none => cases fs.fstatat d name false <;> rfl

theorem MisledByBuffer.not_queuedAsKnown (h : t.MisledByBuffer fs dse d e statbuf visited) :
    ¬ t.QueuedAsKnown fs dse d e visited (t.processEntry fs dse d e statbuf visited) := by
  obtain ⟨hasks, hfails, hdot, hmode⟩ := h
  have hseen : t.seenType fs d e statbuf = some statbuf.stMode := seenType_of_failed hasks hfails
  have hunknown := knownType_eq_none_iff.mpr ⟨hasks, hfails⟩
  intro hqueued
  rcases hmode with ⟨hreg, hfilter⟩ | ⟨hdir, hrecurse, hexclude, hvisited⟩
  · rw [hreg] at hseen
    rw [processEntry_eq_file_iff.mpr (processDirent_eq_file_iff.mpr ⟨hdot, hseen, hfilter, rfl⟩),
      QueuedAsKnown, hunknown] at hqueued
    simp at hqueued
  · have hptr : t.statbuffPtr fs d e statbuf = some statbuf := by
      simp [statbuffPtr, hasks, hfails]
    rw [hdir] at hseen
    have haction : t.processDirent fs dse d e statbuf = .dir _ :=
      processDirent_eq_dir_iff.mpr ⟨hdot, hseen, hrecurse, hexclude, rfl⟩
    rw [processEntry_eq_dir_iff.mpr ⟨_, haction, rfl, fun hfollow => ?_⟩, QueuedAsKnown,
      hunknown] at hqueued
    · simp at hqueued
    · rw [if_pos hfollow, hptr, loaded_uniqueFileIdentifier_of_stat]
      exact hvisited hfollow

/-- `ProcessDirent` queues an entry only as what it is known to be exactly when no failed `fstatat`
leaves a buffer that says otherwise. -/
theorem queuedAsKnown_iff (t : DirTree) (fs : FileSystem D) (dse : FileID D) (d : D) (e : Dirent)
    (statbuf : Stat) (visited : List DevIno) :
    t.QueuedAsKnown fs dse d e visited (t.processEntry fs dse d e statbuf visited) ↔
      ¬ t.MisledByBuffer fs dse d e statbuf visited := by
  refine ⟨fun hqueued hmisled => hmisled.not_queuedAsKnown hqueued, fun hnot => ?_⟩
  cases haction : t.processEntry fs dse d e statbuf visited with
  | ignore => trivial
  | file f =>
    obtain ⟨hdot, hseen, hfilter, rfl⟩ :=
      processDirent_eq_file_iff.mp (processEntry_eq_file_iff.mp haction)
    rcases knownType_of_seenType hseen with hknown | ⟨hasks, hfails, hmode⟩
    · exact ⟨FileID.ofEntry_path, hknown, hfilter⟩
    · exact absurd ⟨hasks, hfails, hdot, Or.inl ⟨hmode, hfilter⟩⟩ hnot
  | dir f =>
    obtain ⟨g, hdirent, rfl, hvisited⟩ := processEntry_eq_dir_iff.mp haction
    obtain ⟨hdot, hseen, hrecurse, hexclude, rfl⟩ := processDirent_eq_dir_iff.mp hdirent
    rcases knownType_of_seenType hseen with hknown | ⟨hasks, hfails, hmode⟩
    · refine ⟨?_, hknown, hrecurse, hexclude, hvisited⟩
      split_ifs
      · rw [loadUniqueFileIdentifier_path, FileID.ofEntry_path]
      · exact FileID.ofEntry_path
    · refine absurd ⟨hasks, hfails, hdot, Or.inr ⟨hmode, hrecurse, hexclude, ?_⟩⟩ hnot
      intro hfollow
      have hptr : t.statbuffPtr fs d e statbuf = some statbuf := by
        simp [statbuffPtr, hasks, hfails]
      have hident := hvisited hfollow
      rwa [if_pos hfollow, hptr, loaded_uniqueFileIdentifier_of_stat] at hident

end DirTree

def danglingLink : Dirent := ⟨[108], .lnk, 7⟩

def danglingFileSystem : FileSystem Unit where
  stat _ := none
  opendir path := if path = [dot] then some () else none
  readdir _ := [danglingLink]
  fstatat _ _ _ := none
  opendirat _ _ := none

def followEverything : DirTree := ⟨true, true, fun _ => true, fun _ => false⟩

def currentDir : FileID Unit := ⟨[dot], .dir, some 1, ⟨1, 2⟩, some ()⟩

/-- With the mode of another file in the buffer the link to nothing is queued as a file. -/
theorem not_queuedAsKnown_danglingLink :
    ¬ followEverything.QueuedAsKnown danglingFileSystem currentDir () danglingLink []
      (followEverything.processEntry danglingFileSystem currentDir () danglingLink ⟨.reg, 1, 5⟩ []) :=
  DirTree.MisledByBuffer.not_queuedAsKnown ⟨rfl, rfl, rfl, Or.inl ⟨rfl, rfl⟩⟩

end Ucg
