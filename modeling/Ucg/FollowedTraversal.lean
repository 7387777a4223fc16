import Ucg.DirTree
import Ucg.PoolView

/-! A traversal that follows symlinks over a graph of directories: its moves, and what they
do to the directories and the entries that wait. -/

namespace Ucg

open Transition Function

variable {D : Type*} {n : Nat}

def Stat.devIno (st : Stat) : DevIno := ⟨st.stDev, st.stIno⟩

/-- The directories that can be opened, with their own device and inode number in `ident`.
Links may lead to them from anywhere. -/
structure IsGraph (fs : FileSystem D) (ident : D → DevIno) : Prop where
  ident_injective : Injective ident
  opendir {path : Bytes} {d : D} :
    fs.opendir path = some d ↔ ∃ st, fs.stat path = some st ∧ st.devIno = ident d
  stat_dir {path : Bytes} {st : Stat} {d : D} :
    fs.stat path = some st → st.devIno = ident d → st.stMode = .dir
  opendirat {d d' : D} {name : Bytes} :
    fs.opendirat d name = some d' ↔ ∃ st, fs.fstatat d name false = some st ∧ st.devIno = ident d'
  fstatat_dir {d d' : D} {name : Bytes} {st : Stat} :
    fs.fstatat d name false = some st → st.devIno = ident d' → st.stMode = .dir
  dType {d d' : D} {e : Dirent} : e ∈ fs.readdir d → fs.opendirat d e.dName = some d' →
    e.dType = .dir ∨ e.dType = .lnk ∨ e.dType = .unknown
  nodup_names (d : D) : ((fs.readdir d).map Dirent.dName).Nodup

/-- The device and inode number of what the entry leads to. -/
def FileSystem.entryIdent (fs : FileSystem D) (d : D) (e : Dirent) : Option DevIno :=
  (fs.fstatat d e.dName false).map Stat.devIno

/-- The device handed down and the inode number listed, or where one is missing what `fstatat`
says. -/
def entryKey (fs : FileSystem D) (dse : FileID D) (d : D) (e : Dirent) : Option DevIno :=
  match dse.dev with
  | some dev => if e.dIno ≠ 0 then some ⟨dev, e.dIno⟩ else fs.entryIdent d e
  | none => fs.entryIdent d e

inductive TraversalEvent (D : Type*)
  | read (d : D)
  | queued (d : D) (e : Dirent)
  | file (d : D) (e : Dirent)
  deriving DecidableEq

abbrev TraversalView (n : Nat) (D : Type*) :=
  PoolView n (FileID D) (ReaddirState D) (TraversalState D)

/-- A worker has opened a directory, has an unvisited directory to push, or has put a file in
its local queue. -/
def TraversalEvent.ofHands :
    Option (ReaddirState D) → Option (ReaddirState D) → Option (TraversalEvent D)
  | none, some (.reading _ d _ _) => some (.read d)
  | some (.reading _ d (e :: _) _), some (.pushing ..) => some (.queued d e)
  | some (.reading _ d (e :: _) files), some (.reading _ _ _ files') =>
    if files.length < files'.length then some (.file d e) else none
  | _, _ => none

def PoolView.events (v v' : TraversalView n D) : List (TraversalEvent D) :=
  (List.finRange n).filterMap fun i => TraversalEvent.ofHands (v.hands i) (v'.hands i)

/-- The entries of its directory that a worker has yet to deal with. -/
def ReaddirState.remaining : ReaddirState D → List (D × Dirent)
  | .reading _ d entries _ | .pushing _ _ d entries _ => entries.map (d, ·)
  | .closing => []

def ReaddirState.inFlight : ReaddirState D → Option (FileID D)
  | .pushing f .. => some f
  | _ => none

/-- From `v` to `v'` a worker deals with the entry `e`. -/
def PoolView.Handles (v v' : TraversalView n D) (dse : FileID D) (d : D) (e : Dirent) : Prop :=
  ∃ i entries files, v.hands i = some (.reading dse d (e :: entries) files) ∧
    v'.hands i ≠ v.hands i

/-- The entry counts as a directory that neither the filter nor `recurse` leaves out. -/
def DirTree.IsDirEntry (t : DirTree) (fs : FileSystem D) (dse : FileID D) (d : D) (e : Dirent) :
    Prop :=
  ∃ statbuf f, t.processDirent fs dse d e statbuf = .dir f

section Entries

variable {t : DirTree} {fs : FileSystem D} {ident : D → DevIno} {dse f : FileID D} {d d' : D}
  {e : Dirent} {statbuf : Stat} {k : DevIno}

theorem queueDirent_eq_dir {isFile isDir isUnknown : Bool} {statBuf : Option Stat}
    (h : t.queueDirent fs dse d e isFile isDir isUnknown statBuf = .dir f) :
    f = .ofEntry fs dse d e.dName statBuf .dir e.dIno := by
  unfold DirTree.queueDirent at h
  split_ifs at h
  exact (DirentAction.dir.inj h).symm

theorem processDirent_eq_dir (hfollow : t.followSymlinks = true)
    (h : t.processDirent fs dse d e statbuf = .dir f) : ∃ statBuf,
      f = .ofEntry fs dse d e.dName statBuf .dir e.dIno ∧
        (statBuf = none ∨ statBuf = some ((fs.fstatat d e.dName false).getD statbuf)) := by
  unfold DirTree.processDirent at h
  simp only [hfollow, Bool.not_true, Bool.true_and] at h
  split_ifs at h
  · exact ⟨_, queueDirent_eq_dir h, Or.inr rfl⟩
  · exact ⟨_, queueDirent_eq_dir h, Or.inl rfl⟩

theorem FileID.ofEntry_of_dev {dev : Nat} {bname : Bytes} {statBuf : Option Stat} {type : FileType}
    {ino : Nat} (hdev : dse.dev = some dev) (hino : ino ≠ 0) :
    (FileID.ofEntry fs dse d bname statBuf type ino).dev = some dev ∧
      (FileID.ofEntry fs dse d bname statBuf type ino).uniqueFileIdentifier = ⟨dev, ino⟩ := by
  simp [FileID.ofEntry, hdev, hino, FileID.setDevIno]

theorem FileID.ofEntry_of_stat {bname : Bytes} {st : Stat} {type : FileType} {ino : Nat}
    (h : dse.dev = none ∨ ino = 0) :
    (FileID.ofEntry fs dse d bname (some st) type ino).dev = some st.stDev ∧
      (FileID.ofEntry fs dse d bname (some st) type ino).uniqueFileIdentifier = st.devIno := by
  rcases h with hdev | hino
  · simp [FileID.ofEntry, hdev, FileID.setStatInfo, Stat.devIno]
  · cases hdev : dse.dev <;> simp [FileID.ofEntry, hdev, hino, FileID.setStatInfo, Stat.devIno]

theorem FileID.ofEntry_of_none {bname : Bytes} {type : FileType} {ino : Nat}
    (h : dse.dev = none ∨ ino = 0) :
    (FileID.ofEntry fs dse d bname none type ino).dev = none := by
  rcases h with hdev | hino
  · simp [FileID.ofEntry, hdev]
  · cases hdev : dse.dev <;> simp [FileID.ofEntry, hdev, hino]

theorem FileID.loadUniqueFileIdentifier_of_dev {dev : Nat} {bname : Bytes} (h : f.dev = some dev) :
    f.loadUniqueFileIdentifier fs d bname = f := by
  rw [FileID.loadUniqueFileIdentifier, h]

theorem FileID.loadUniqueFileIdentifier_of_none {bname : Bytes} {st : Stat} (h : f.dev = none)
    (hst : fs.fstatat d bname false = some st) :
    f.loadUniqueFileIdentifier fs d bname = f.setStatInfo st := by
  rw [FileID.loadUniqueFileIdentifier, h, hst]

theorem FileID.loadUniqueFileIdentifier_dir {bname : Bytes} :
    (f.loadUniqueFileIdentifier fs d bname).dir = f.dir := by
  cases hdev : f.dev with
  | some dev => rw [loadUniqueFileIdentifier_of_dev hdev]
  | none =>
    cases hst : fs.fstatat d bname false <;>
      simp [FileID.loadUniqueFileIdentifier, hdev, hst, FileID.setStatInfo]

theorem loaded_entry (hfollow : t.followSymlinks = true)
    (h : t.processDirent fs dse d e statbuf = .dir f) (hk : entryKey fs dse d e = some k) :
    (f.loadUniqueFileIdentifier fs d e.dName).dev = some k.dev ∧
      (f.loadUniqueFileIdentifier fs d e.dName).uniqueFileIdentifier = k := by
  obtain ⟨statBuf, rfl, hbuf⟩ := processDirent_eq_dir hfollow h
  by_cases hlisted : ∃ dev, dse.dev = some dev ∧ e.dIno ≠ 0
  · obtain ⟨dev, hdev, hino⟩ := hlisted
    obtain rfl : ⟨dev, e.dIno⟩ = k := by simpa [entryKey, hdev, hino] using hk
    rw [FileID.loadUniqueFileIdentifier_of_dev (FileID.ofEntry_of_dev hdev hino).1]
    exact FileID.ofEntry_of_dev hdev hino
  · have hmissing : dse.dev = none ∨ e.dIno = 0 := by
      cases hdev : dse.dev with
      | none => exact Or.inl rfl
      | some dev => exact Or.inr (by_contra fun hino => hlisted ⟨dev, hdev, hino⟩)
    have hident : fs.entryIdent d e = some k := by
      rcases hmissing with hdev | hino
      · simpa [entryKey, hdev] using hk
      · cases hdev : dse.dev <;> simpa [entryKey, hdev, hino] using hk
    obtain ⟨st, hst, rfl⟩ := Option.map_eq_some_iff.mp hident
    rcases hbuf with rfl | rfl
    · rw [FileID.loadUniqueFileIdentifier_of_none (FileID.ofEntry_of_none hmissing) hst]
      exact ⟨rfl, rfl⟩
    · rw [hst, Option.getD_some]
      rw [FileID.loadUniqueFileIdentifier_of_dev (FileID.ofEntry_of_stat hmissing).1]
      exact FileID.ofEntry_of_stat hmissing

theorem loaded_uniqueFileIdentifier (hfollow : t.followSymlinks = true)
    (h : t.processDirent fs dse d e statbuf = .dir f) (hk : entryKey fs dse d e = some k) :
    (f.loadUniqueFileIdentifier fs d e.dName).uniqueFileIdentifier = k :=
  (loaded_entry hfollow h hk).2

end Entries

section Moves

variable {t : DirTree} {fs : FileSystem D} {v v' : TraversalView n D}

/-- What a worker that follows symlinks can do, and the events of it. -/
inductive TraversalMove (t : DirTree) (fs : FileSystem D) (v : TraversalView n D) :
    List (TraversalEvent D) → TraversalView n D → Prop
  | idle : TraversalMove t fs v [] v
  | skip (i : Fin n) (x : FileID D) (xs : List (FileID D)) : v.hands i = none →
      v.items = x :: xs → x.dir = none →
      TraversalMove t fs v [] { v with items := xs, hands := update v.hands i (some .closing) }
  | read (i : Fin n) (x : FileID D) (xs : List (FileID D)) (d : D) : v.hands i = none →
      v.items = x :: xs → x.dir = some d →
      TraversalMove t fs v [.read d]
        { v with items := xs, hands := update v.hands i (some (.reading x d (fs.readdir d) [])) }
  | ignore (i : Fin n) (dse : FileID D) (d : D) (e : Dirent) (entries : List Dirent)
      (files : List (FileID D)) (statbuf : Stat) :
      v.hands i = some (.reading dse d (e :: entries) files) →
      t.processDirent fs dse d e statbuf = .ignore →
      TraversalMove t fs v []
        { v with hands := update v.hands i (some (.reading dse d entries files)) }
  | file (i : Fin n) (dse : FileID D) (d : D) (e : Dirent) (entries : List Dirent)
      (files : List (FileID D)) (statbuf : Stat) (f : FileID D) :
      v.hands i = some (.reading dse d (e :: entries) files) →
      t.processDirent fs dse d e statbuf = .file f →
      TraversalMove t fs v [.file d e]
        { v with hands := update v.hands i (some (.reading dse d entries (files ++ [f]))) }
  | reject (i : Fin n) (dse : FileID D) (d : D) (e : Dirent) (entries : List Dirent)
      (files : List (FileID D)) (statbuf : Stat) (f : FileID D) :
      v.hands i = some (.reading dse d (e :: entries) files) →
      t.processDirent fs dse d e statbuf = .dir f →
      (f.loadUniqueFileIdentifier fs d e.dName).uniqueFileIdentifier ∈ v.world.dirHasBeenVisited →
      TraversalMove t fs v []
        { v with hands := update v.hands i (some (.reading dse d entries files)) }
  | accept (i : Fin n) (dse : FileID D) (d : D) (e : Dirent) (entries : List Dirent)
      (files : List (FileID D)) (statbuf : Stat) (f : FileID D) :
      v.hands i = some (.reading dse d (e :: entries) files) →
      t.processDirent fs dse d e statbuf = .dir f →
      (f.loadUniqueFileIdentifier fs d e.dName).uniqueFileIdentifier ∉ v.world.dirHasBeenVisited →
      TraversalMove t fs v [.queued d e]
        { v with
          hands := update v.hands i
            (some (.pushing (f.loadUniqueFileIdentifier fs d e.dName) dse d entries files))
          world := { v.world with
            dirHasBeenVisited := v.world.dirHasBeenVisited.insert
              (f.loadUniqueFileIdentifier fs d e.dName).uniqueFileIdentifier } }
  | push (i : Fin n) (f dse : FileID D) (d : D) (entries : List Dirent) (files : List (FileID D)) :
      v.hands i = some (.pushing f dse d entries files) →
      TraversalMove t fs v []
        { v with
          items := v.items ++ [f]
          hands := update v.hands i (some (.reading dse d entries files)) }
  | flush (i : Fin n) (dse : FileID D) (d : D) (files : List (FileID D)) :
      v.hands i = some (.reading dse d [] files) →
      TraversalMove t fs v []
        { v with
          hands := update v.hands i (some .closing)
          world := { v.world with outQueue := v.world.outQueue ++ files } }
  | finish (i : Fin n) (b : ReaddirState D) : v.hands i = some b → b.remaining = [] →
      b.inFlight = none →
      TraversalMove t fs v [] { v with hands := update v.hands i none }

theorem ofHands_self (h : Option (ReaddirState D)) : TraversalEvent.ofHands h h = none := by
  rcases h with _ | _ | _ <;> try rfl
  rename_i entries files
  cases entries <;> simp [TraversalEvent.ofHands]

theorem ofHands_pass (dse dse' : FileID D) (d d' : D) (e : Dirent) (entries entries' : List Dirent)
    (files : List (FileID D)) :
    TraversalEvent.ofHands (some (.reading dse d (e :: entries) files))
      (some (.reading dse' d' entries' files)) = none := by
  simp [TraversalEvent.ofHands]

theorem ofHands_file (dse dse' f : FileID D) (d d' : D) (e : Dirent)
    (entries entries' : List Dirent) (files : List (FileID D)) :
    TraversalEvent.ofHands (some (.reading dse d (e :: entries) files))
      (some (.reading dse' d' entries' (files ++ [f]))) = some (.file d e) := by
  simp [TraversalEvent.ofHands]

theorem filterMap_eq_toList {ι κ : Type*} [DecidableEq ι] {f : ι → Option κ} {i : ι}
    (hf : ∀ j ≠ i, f j = none) {l : List ι} (hnd : l.Nodup) (hi : i ∈ l) :
    l.filterMap f = (f i).toList := by
  induction l with
  | nil => simp at hi
  | cons j l ih =>
    obtain ⟨hj, hnd⟩ := List.nodup_cons.mp hnd
    by_cases hij : j = i
    · subst hij
      have hrest : l.filterMap f = [] :=
        List.filterMap_eq_nil_iff.mpr fun k hk => hf k fun hkj => hj (hkj ▸ hk)
      cases hfj : f j <;> simp [hfj, hrest]
    · rw [List.filterMap_cons_none (hf j hij)]
      exact ih hnd ((List.mem_cons.mp hi).resolve_left fun h => hij h.symm)

theorem events_of_update {i : Fin n} {h : Option (ReaddirState D)}
    (hhands : v'.hands = update v.hands i h) :
    v.events v' = (TraversalEvent.ofHands (v.hands i) h).toList := by
  unfold PoolView.events
  rw [hhands, filterMap_eq_toList (i := i) (fun j hj => ?_) (List.nodup_finRange n)
    (List.mem_finRange i), update_self]
  rw [update_of_ne hj, ofHands_self]

theorem readdirStep_entry (hfollow : t.followSymlinks = true) {dse : FileID D} {d : D} {e : Dirent}
    {entries : List Dirent} {files : List (FileID D)} {w : TraversalState D}
    {a : WorkAct (FileID D) (ReaddirState D) (TraversalState D)}
    (h : t.readdirStep fs (.reading dse d (e :: entries) files) w a) : ∃ statbuf,
    (t.processDirent fs dse d e statbuf = .ignore ∧ a = .work (.reading dse d entries files) w) ∨
    (∃ f, t.processDirent fs dse d e statbuf = .file f ∧
      a = .work (.reading dse d entries (files ++ [f])) w) ∨
    (∃ f, t.processDirent fs dse d e statbuf = .dir f ∧
      (f.loadUniqueFileIdentifier fs d e.dName).uniqueFileIdentifier ∈ w.dirHasBeenVisited ∧
      a = .work (.reading dse d entries files) w) ∨
    (∃ f, t.processDirent fs dse d e statbuf = .dir f ∧
      (f.loadUniqueFileIdentifier fs d e.dName).uniqueFileIdentifier ∉ w.dirHasBeenVisited ∧
      a = .work (.pushing (f.loadUniqueFileIdentifier fs d e.dName) dse d entries files)
        { w with
          dirHasBeenVisited := w.dirHasBeenVisited.insert
            (f.loadUniqueFileIdentifier fs d e.dName).uniqueFileIdentifier }) := by
  obtain ⟨statbuf, ha⟩ := h
  refine ⟨statbuf, ?_⟩
  cases haction : t.processDirent fs dse d e statbuf with
  | ignore => exact Or.inl ⟨rfl, by simpa [haction] using ha⟩
  | file f => exact Or.inr (Or.inl ⟨f, rfl, by simpa [haction] using ha⟩)
  | dir f =>
    simp only [haction, hfollow, if_true, hasDirBeenVisited] at ha
    by_cases hvisited : (f.loadUniqueFileIdentifier fs d e.dName).uniqueFileIdentifier ∈
        w.dirHasBeenVisited
    · rw [List.contains_iff_mem.mpr hvisited] at ha
      exact Or.inr (Or.inr (Or.inl ⟨f, rfl, hvisited, ha⟩))
    · rw [Bool.eq_false_iff.mpr fun h => hvisited (List.contains_iff_mem.mp h)] at ha
      exact Or.inr (Or.inr (Or.inr ⟨f, rfl, hvisited, ha⟩))

/-- Every move of a pool of `ReaddirLoop` threads that follow symlinks is one of these. -/
theorem PoolMove.traversalMove (hfollow : t.followSymlinks = true)
    (h : PoolMove (t.readdirLoop fs) v v') : TraversalMove t fs v (v.events v') v' := by
  cases h with
  | idle =>
    have hevents : v.events v = [] :=
      List.filterMap_eq_nil_iff.mpr fun i _ => ofHands_self (v.hands i)
    rw [hevents]
    exact .idle
  | @pull i x xs hi hitems =>
    rw [events_of_update rfl, hi]
    cases hdir : x.dir with
    | none =>
      rw [show (t.readdirLoop fs).load x = .closing by simp [DirTree.readdirLoop, hdir]]
      exact .skip i x xs hi hitems hdir
    | some d =>
      rw [show (t.readdirLoop fs).load x = .reading x d (fs.readdir d) [] by
        simp [DirTree.readdirLoop, hdir]]
      exact .read i x xs d hi hitems hdir
  | @push i b next arg hi ha =>
    rw [events_of_update rfl, hi]
    cases b with
    | reading dse d entries files =>
      cases entries with
      | nil =>
        simp only [DirTree.readdirLoop, DirTree.readdirStep] at ha
        split at ha <;> cases ha
      | cons e entries =>
        obtain ⟨_, ⟨_, h⟩ | ⟨_, _, h⟩ | ⟨_, _, _, h⟩ | ⟨_, _, _, h⟩⟩ := readdirStep_entry hfollow ha <;>
          cases h
    | pushing f dse d entries files =>
      cases ha
      have hnone : TraversalEvent.ofHands (some (.pushing f dse d entries files))
          (some (.reading dse d entries files)) = none := rfl
      rw [hnone]
      exact .push i f dse d entries files hi
    | closing => cases ha
  | @work i b next world hi ha =>
    rw [events_of_update rfl, hi]
    cases b with
    | reading dse d entries files =>
      cases entries with
      | nil =>
        simp only [DirTree.readdirLoop, DirTree.readdirStep] at ha
        split at ha
        · cases ha
        · cases ha
          exact .flush i dse d files hi
      | cons e entries =>
        obtain ⟨statbuf, ⟨haction, h⟩ | ⟨f, haction, h⟩ | ⟨f, haction, hvisited, h⟩ |
          ⟨f, haction, hvisited, h⟩⟩ := readdirStep_entry hfollow ha <;> cases h
        · rw [ofHands_pass]
          exact .ignore i dse d e entries files statbuf hi haction
        · rw [ofHands_file]
          exact .file i dse d e entries files statbuf f hi haction
        · rw [ofHands_pass]
          exact .reject i dse d e entries files statbuf f hi haction hvisited
        · exact .accept i dse d e entries files statbuf f hi haction hvisited
    | pushing f dse d entries files => cases ha
    | closing => cases ha
  | @finish i b hi ha =>
    have hnone : TraversalEvent.ofHands (some b) none = none := by
      rcases b with ⟨_, _, _ | _, _⟩ | _ | _ <;> rfl
    rw [events_of_update rfl, hi, hnone]
    cases b with
    | reading dse d entries files =>
      cases entries with
      | nil => exact .finish i _ hi rfl rfl
      | cons e entries =>
        obtain ⟨_, ⟨_, h⟩ | ⟨_, _, h⟩ | ⟨_, _, _, h⟩ | ⟨_, _, _, h⟩⟩ := readdirStep_entry hfollow ha <;>
          cases h
    | pushing f dse d entries files => cases ha
    | closing => exact .finish i _ hi rfl rfl

end Moves

section Accounts

variable {t : DirTree} {fs : FileSystem D} {v v' : TraversalView n D} {i : Fin n}
  {h : Option (ReaddirState D)} {l : List (TraversalEvent D)}

namespace TraversalEvent

def readDir : TraversalEvent D → Option D
  | .read d => some d
  | _ => none

def queuedDir (fs : FileSystem D) : TraversalEvent D → Option D
  | .queued d e => fs.opendirat d e.dName
  | _ => none

def readEntries (fs : FileSystem D) : TraversalEvent D → List (D × Dirent)
  | .read d => (fs.readdir d).map (d, ·)
  | _ => []

def fileEntry : TraversalEvent D → Option (D × Dirent)
  | .file d e => some (d, e)
  | _ => none

end TraversalEvent

def handDirs (h : Option (ReaddirState D)) : Multiset D :=
  ((h.bind ReaddirState.inFlight).bind FileID.dir).toList

def handEntries (h : Option (ReaddirState D)) : Multiset (D × Dirent) :=
  (h.map ReaddirState.remaining).getD []

@[simp]
theorem handEntries_none : handEntries (none : Option (ReaddirState D)) = 0 := rfl

@[simp]
theorem handEntries_some (b : ReaddirState D) : handEntries (some b) = ↑b.remaining := rfl

/-- The directories that are queued or about to be pushed. -/
def PoolView.pendingDirs (v : TraversalView n D) : Multiset D :=
  ↑(v.items.filterMap FileID.dir) + ∑ i, handDirs (v.hands i)

def PoolView.pendingEntries (v : TraversalView n D) : Multiset (D × Dirent) :=
  ∑ i, handEntries (v.hands i)

theorem pendingDirs_of_update {reads queued : Multiset D} (hhands : v'.hands = update v.hands i h)
    (hbalance : reads + (↑(v'.items.filterMap FileID.dir) + handDirs h) =
      ↑(v.items.filterMap FileID.dir) + handDirs (v.hands i) + queued) :
    reads + v'.pendingDirs = v.pendingDirs + queued := by
  have hsum := sum_update handDirs v.hands i h
  refine add_right_cancel (b := handDirs (v.hands i)) ?_
  calc reads + v'.pendingDirs + handDirs (v.hands i)
    _ = reads + ↑(v'.items.filterMap FileID.dir) +
        (∑ j, handDirs (update v.hands i h j) + handDirs (v.hands i)) := by
      rw [PoolView.pendingDirs, hhands]
      abel
    _ = reads + (↑(v'.items.filterMap FileID.dir) + handDirs h) + ∑ j, handDirs (v.hands j) := by
      rw [hsum]
      abel
    _ = v.pendingDirs + queued + handDirs (v.hands i) := by
      rw [hbalance, PoolView.pendingDirs]
      abel

theorem pendingEntries_of_update {read dealt : Multiset (D × Dirent)}
    (hhands : v'.hands = update v.hands i h)
    (hbalance : handEntries (v.hands i) + read = handEntries h + dealt) :
    v.pendingEntries + read = v'.pendingEntries + dealt := by
  have hsum := sum_update handEntries v.hands i h
  refine add_right_cancel (b := handEntries (v.hands i)) ?_
  calc v.pendingEntries + read + handEntries (v.hands i)
    _ = v.pendingEntries + (handEntries (v.hands i) + read) := by abel
    _ = ∑ j, handEntries (v.hands j) + handEntries h + dealt := by
      rw [hbalance, PoolView.pendingEntries, add_assoc]
    _ = v'.pendingEntries + dealt + handEntries (v.hands i) := by
      rw [← hsum, PoolView.pendingEntries, hhands]
      abel

theorem TraversalMove.dirs_balance (hfollow : t.followSymlinks = true)
    (hmove : TraversalMove t fs v l v') :
    ↑(l.filterMap TraversalEvent.readDir) + v'.pendingDirs =
      v.pendingDirs + ↑(l.filterMap (TraversalEvent.queuedDir fs)) := by
  cases hmove with
  | idle => simp
  | skip i x xs hi hitems hdir =>
    refine pendingDirs_of_update (i := i) rfl ?_
    simp [hi, hitems, hdir, handDirs, ReaddirState.inFlight]
  | read i x xs d hi hitems hdir =>
    refine pendingDirs_of_update (i := i) rfl ?_
    simp [hi, hitems, hdir, handDirs, ReaddirState.inFlight, TraversalEvent.readDir,
      TraversalEvent.queuedDir, List.filterMap_cons, ← Multiset.cons_coe]
  | ignore i dse d e entries files statbuf hi _ =>
    refine pendingDirs_of_update (i := i) rfl ?_
    simp [hi, handDirs, ReaddirState.inFlight]
  | file i dse d e entries files statbuf f hi _ =>
    refine pendingDirs_of_update (i := i) rfl ?_
    simp [hi, handDirs, ReaddirState.inFlight, TraversalEvent.readDir, TraversalEvent.queuedDir,
      List.filterMap_cons]
  | reject i dse d e entries files statbuf f hi _ _ =>
    refine pendingDirs_of_update (i := i) rfl ?_
    simp [hi, handDirs, ReaddirState.inFlight]
  | accept i dse d e entries files statbuf f hi haction _ =>
    have hdir : (f.loadUniqueFileIdentifier fs d e.dName).dir = fs.opendirat d e.dName := by
      obtain ⟨_, rfl, _⟩ := processDirent_eq_dir hfollow haction
      rw [FileID.loadUniqueFileIdentifier_dir, FileID.ofEntry_dir]
    refine pendingDirs_of_update (i := i) rfl ?_
    cases hopen : fs.opendirat d e.dName <;>
      simp [hi, handDirs, ReaddirState.inFlight, hdir, hopen, TraversalEvent.readDir,
        TraversalEvent.queuedDir, List.filterMap_cons]
  | push i f dse d entries files hi =>
    refine pendingDirs_of_update (i := i) rfl ?_
    cases hdir : f.dir <;>
      simp [hi, handDirs, ReaddirState.inFlight, hdir, ← Multiset.coe_add]
  | flush i dse d files hi =>
    refine pendingDirs_of_update (i := i) rfl ?_
    simp [hi, handDirs, ReaddirState.inFlight]
  | finish i b hi _ hflight =>
    refine pendingDirs_of_update (i := i) rfl ?_
    simp [hi, handDirs, hflight]

section Dealt

variable {dse : FileID D} {d : D} {e : Dirent} {entries : List Dirent} {files : List (FileID D)}
  {b : ReaddirState D}

theorem remaining_reading (hb : b.remaining = entries.map (d, ·)) :
    ReaddirState.remaining (.reading dse d (e :: entries) files) = (d, e) :: b.remaining := by
  rw [hb]
  rfl

theorem handles_of_update (hi : v.hands i = some (.reading dse d (e :: entries) files))
    (hhands : v'.hands = update v.hands i (some b)) (hb : b.remaining = entries.map (d, ·)) :
    v.Handles v' dse d e := by
  refine ⟨i, entries, files, hi, fun hsame => ?_⟩
  rw [hhands, update_self, hi] at hsame
  rw [Option.some.inj hsame, ReaddirState.remaining] at hb
  simp at hb

theorem pendingEntries_of_dealt (hi : v.hands i = some (.reading dse d (e :: entries) files))
    (hhands : v'.hands = update v.hands i (some b)) (hb : b.remaining = entries.map (d, ·)) :
    v.pendingEntries = (d, e) ::ₘ v'.pendingEntries := by
  have hbalance : v.pendingEntries + 0 = v'.pendingEntries + {(d, e)} := by
    refine pendingEntries_of_update hhands ?_
    rw [hi, handEntries_some, handEntries_some, remaining_reading hb, add_zero, add_comm,
      Multiset.singleton_add, Multiset.cons_coe]
  rwa [add_zero, add_comm, Multiset.singleton_add] at hbalance

end Dealt

theorem pendingEntries_same (hhands : v'.hands = update v.hands i h)
    (hsame : handEntries (v.hands i) = handEntries h) :
    v.pendingEntries = v'.pendingEntries := by
  have hbalance : v.pendingEntries + 0 = v'.pendingEntries + 0 :=
    pendingEntries_of_update hhands (by rw [hsame])
  simpa using hbalance

theorem TraversalMove.entries_cases (hmove : TraversalMove t fs v l v') :
    (v.pendingEntries + ↑(l.flatMap (TraversalEvent.readEntries fs)) = v'.pendingEntries ∧
      l.filterMap TraversalEvent.fileEntry = []) ∨
    ∃ dse d e statbuf, v.Handles v' dse d e ∧ v.pendingEntries = (d, e) ::ₘ v'.pendingEntries ∧
      (l = [] ∧ t.processDirent fs dse d e statbuf = .ignore ∨
        (l = [] ∧ ∃ f, t.processDirent fs dse d e statbuf = .dir f ∧
          (f.loadUniqueFileIdentifier fs d e.dName).uniqueFileIdentifier ∈
            v.world.dirHasBeenVisited) ∨
        (l = [.file d e] ∧ ∃ f, t.processDirent fs dse d e statbuf = .file f) ∨
        (l = [.queued d e] ∧ ∃ f, t.processDirent fs dse d e statbuf = .dir f)) := by
  cases hmove with
  | idle => exact Or.inl ⟨by simp, rfl⟩
  | skip i x xs hi hitems hdir =>
    refine Or.inl ⟨?_, rfl⟩
    rw [List.flatMap_nil, Multiset.coe_nil, add_zero]
    exact pendingEntries_same (i := i) rfl (by rw [hi]; rfl)
  | read i x xs d hi hitems hdir =>
    refine Or.inl ⟨?_, rfl⟩
    refine (pendingEntries_of_update (i := i) rfl ?_).trans (add_zero _)
    rw [hi, handEntries_none, zero_add, add_zero, List.flatMap_singleton]
    rfl
  | ignore i dse d e entries files statbuf hi haction =>
    refine Or.inr ⟨dse, d, e, statbuf, handles_of_update hi rfl rfl,
      pendingEntries_of_dealt hi rfl rfl, ?_⟩
    exact Or.inl ⟨rfl, haction⟩
  | reject i dse d e entries files statbuf f hi haction hvisited =>
    refine Or.inr ⟨dse, d, e, statbuf, handles_of_update hi rfl rfl,
      pendingEntries_of_dealt hi rfl rfl, ?_⟩
    exact Or.inr (Or.inl ⟨rfl, f, haction, hvisited⟩)
  | file i dse d e entries files statbuf f hi haction =>
    refine Or.inr ⟨dse, d, e, statbuf, handles_of_update hi rfl rfl,
      pendingEntries_of_dealt hi rfl rfl, ?_⟩
    exact Or.inr (Or.inr (Or.inl ⟨rfl, f, haction⟩))
  | accept i dse d e entries files statbuf f hi haction _ =>
    refine Or.inr ⟨dse, d, e, statbuf, handles_of_update hi rfl rfl,
      pendingEntries_of_dealt hi rfl rfl, ?_⟩
    exact Or.inr (Or.inr (Or.inr ⟨rfl, f, haction⟩))
  | push i f dse d entries files hi =>
    refine Or.inl ⟨?_, rfl⟩
    rw [List.flatMap_nil, Multiset.coe_nil, add_zero]
    exact pendingEntries_same (i := i) rfl (by rw [hi]; rfl)
  | flush i dse d files hi =>
    refine Or.inl ⟨?_, rfl⟩
    rw [List.flatMap_nil, Multiset.coe_nil, add_zero]
    exact pendingEntries_same (i := i) rfl (by rw [hi]; rfl)
  | finish i b hi hremaining _ =>
    refine Or.inl ⟨?_, rfl⟩
    rw [List.flatMap_nil, Multiset.coe_nil, add_zero]
    exact pendingEntries_same (i := i) rfl (by rw [hi, handEntries_some, hremaining]; rfl)

theorem TraversalMove.entries_balance (hmove : TraversalMove t fs v l v') :
    ↑(l.filterMap TraversalEvent.fileEntry) + v'.pendingEntries ≤
      v.pendingEntries + ↑(l.flatMap (TraversalEvent.readEntries fs)) := by
  rcases hmove.entries_cases with ⟨hpending, hfiles⟩ | ⟨_, d, e, _, _, hpending, hcases⟩
  · rw [hpending, hfiles, Multiset.coe_nil, zero_add]
  · have hfiles : Multiset.ofList (l.filterMap TraversalEvent.fileEntry) ≤ {(d, e)} := by
      rcases hcases with ⟨rfl, _⟩ | ⟨rfl, _⟩ | ⟨rfl, _⟩ | ⟨rfl, _⟩ <;>
        simp [TraversalEvent.fileEntry, List.filterMap_cons]
    rw [hpending, ← Multiset.singleton_add]
    exact (add_le_add_left hfiles _).trans (Multiset.le_add_right _ _)

theorem TraversalMove.queued_cases (hmove : TraversalMove t fs v l v') :
    ((∀ d e, .queued d e ∉ l) ∧ v'.world.dirHasBeenVisited = v.world.dirHasBeenVisited) ∨
    ∃ dse d e statbuf f, v.Handles v' dse d e ∧ t.processDirent fs dse d e statbuf = .dir f ∧
      (f.loadUniqueFileIdentifier fs d e.dName).uniqueFileIdentifier ∉ v.world.dirHasBeenVisited ∧
      l = [.queued d e] ∧ v'.world.dirHasBeenVisited = v.world.dirHasBeenVisited.insert
        (f.loadUniqueFileIdentifier fs d e.dName).uniqueFileIdentifier := by
  cases hmove with
  | accept i dse d e entries files statbuf f hi haction hnew =>
    exact Or.inr ⟨dse, d, e, statbuf, f, handles_of_update hi rfl rfl, haction, hnew, rfl, rfl⟩
  | _ => exact Or.inl ⟨by simp, rfl⟩

end Accounts

section Runs

variable {t : DirTree} {fs : FileSystem D} {startPaths : List Bytes}
  {C : TraversalView n D → TraversalView n D → Prop}
  {s : PoolState n (FileID D) (ReaddirState D) (TraversalState D)} {l : List (TraversalEvent D)}

/-- The runs of `Scandir` whose steps meet a condition, with their events. -/
def TraversalRun (t : DirTree) (fs : FileSystem D) (startPaths : List Bytes)
    (C : TraversalView n D → TraversalView n D → Prop) :
    PoolState n (FileID D) (ReaddirState D) (TraversalState D) → List (TraversalEvent D) → Prop :=
  Recorded (ScandirInit fs startPaths n)
    (fun s e s' => PoolStep (t.readdirLoop fs) False s e s' ∧ C s.view s'.view)
    fun s s' => s.view.events s'.view

namespace TraversalRun

theorem reachable (h : TraversalRun t fs startPaths C s l) :
    Reachable (ScandirInit fs startPaths n) (PoolStep (t.readdirLoop fs) False) s :=
  (Recorded.reachable h).mono fun _ _ _ hstep => hstep.1

theorem next {s' : PoolState n (FileID D) (ReaddirState D) (TraversalState D)}
    (h : TraversalRun t fs startPaths C s l) {e : Event (FileID D)}
    (hstep : PoolStep (t.readdirLoop fs) False s e s') (hC : C s.view s'.view) :
    TraversalRun t fs startPaths C s' (l ++ s.view.events s'.view) :=
  Recorded.tail h ⟨hstep, hC⟩

theorem quiet (h : TraversalRun t fs startPaths C s l) : Quiet s := Quiet.reachable h.reachable

theorem invariant (hfollow : t.followSymlinks = true)
    {I : TraversalView n D → List (TraversalEvent D) → Prop}
    (hinit : I ⟨(scandirPaths fs startPaths).1, fun _ => none,
      ⟨(scandirPaths fs startPaths).2, []⟩⟩ [])
    (hstep : ∀ v l v' l', I v l → TraversalMove t fs v l' v' → C v v' → I v' (l ++ l'))
    (h : TraversalRun t fs startPaths C s l) : I s.view l := by
  refine Recorded.invariant (I := fun s l => I s.view l) (fun s hs => ?_)
    (fun s l e s' hreach hs he => ?_) h
  · subst hs
    exact hinit
  · have hreach : Reachable (ScandirInit fs startPaths n) (PoolStep (t.readdirLoop fs) False) s :=
      hreach.mono fun _ _ _ hstep => hstep.1
    have hmove := he.1.move (Counted.reachable hreach) (Quiet.reachable hreach)
    exact hstep _ _ _ _ hs (hmove.traversalMove hfollow) he.2

theorem dirs_balance (hfollow : t.followSymlinks = true)
    (h : TraversalRun t fs startPaths C s l) :
    (↑(l.filterMap TraversalEvent.readDir) + s.view.pendingDirs : Multiset D) =
      ↑((scandirPaths fs startPaths).1.filterMap FileID.dir) +
        ↑(l.filterMap (TraversalEvent.queuedDir fs)) := by
  refine invariant hfollow (I := fun v l =>
    Multiset.ofList (l.filterMap TraversalEvent.readDir) + v.pendingDirs =
      ↑((scandirPaths fs startPaths).1.filterMap FileID.dir) +
        ↑(l.filterMap (TraversalEvent.queuedDir fs))) ?_ (fun v l v' l' hv hmove _ => ?_) h
  · simp [PoolView.pendingDirs, handDirs]
  · have hbalance := hmove.dirs_balance hfollow
    simp only [List.filterMap_append, ← Multiset.coe_add]
    rw [add_assoc, hbalance, ← add_assoc, hv, add_assoc]

theorem entries_balance (hfollow : t.followSymlinks = true)
    (h : TraversalRun t fs startPaths C s l) :
    (↑(l.filterMap TraversalEvent.fileEntry) + s.view.pendingEntries : Multiset (D × Dirent)) ≤
      ↑(l.flatMap (TraversalEvent.readEntries fs)) := by
  refine invariant hfollow (I := fun v l =>
    Multiset.ofList (l.filterMap TraversalEvent.fileEntry) + v.pendingEntries ≤
      ↑(l.flatMap (TraversalEvent.readEntries fs))) ?_ (fun v l v' l' hv hmove _ => ?_) h
  · simp [PoolView.pendingEntries, handEntries]
  · simp only [List.filterMap_append, List.flatMap_append, ← Multiset.coe_add]
    calc (↑(l.filterMap TraversalEvent.fileEntry) + ↑(l'.filterMap TraversalEvent.fileEntry) +
          v'.pendingEntries : Multiset (D × Dirent))
      _ ≤ ↑(l.filterMap TraversalEvent.fileEntry) + (v.pendingEntries +
          ↑(l'.flatMap (TraversalEvent.readEntries fs))) := by
        rw [add_assoc]
        exact add_le_add_right hmove.entries_balance _
      _ ≤ ↑(l.flatMap (TraversalEvent.readEntries fs)) +
          ↑(l'.flatMap (TraversalEvent.readEntries fs)) := by
        rw [← add_assoc]
        gcongr

end TraversalRun

end Runs

end Ucg
