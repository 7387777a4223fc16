import Mathlib.Data.List.DropRight
import Ucg.Match
import Ucg.WorkerPool

/-! `DirTree`: one directory entry, the loop of a worker, and the start paths, over what
`FileID` and the file system below it give. -/

namespace Ucg

section Paths

def slash : UInt8 := 47

def dot : UInt8 := 46

/-- `dirname` of the C library. Two leading slashes stay, three or more become one. -/
def dirname (path : Bytes) : Bytes :=
  let leading (slashes : Bytes) := if slashes.length = 2 then slashes else [slash]
  match path.rdropWhile (· = slash) with
  | [] => if path = [] then [dot] else leading path
  | stripped =>
    match stripped.rdropWhile (· ≠ slash) with
    | [] => [dot]
    | parent =>
      match parent.rdropWhile (· = slash) with
      | [] => leading parent
      | dir => dir

/-- The POSIX `basename` of the C library. -/
def basename (path : Bytes) : Bytes :=
  match path.rdropWhile (· = slash) with
  | [] => if path = [] then [dot] else [slash]
  | stripped => stripped.rtakeWhile (· ≠ slash)

def cleanUpPath (path : Bytes) : Bytes :=
  let dir := dirname path
  let base := basename path
  if dir = [] ∨ dir = [dot] then base else dir ++ [slash] ++ base

def isPathnameAbsolute (path : Bytes) : Bool := path.head? == some slash

def resolvePath (atPath basename : Bytes) : Bytes :=
  if isPathnameAbsolute basename then basename
  else if atPath = [dot] then basename
  else atPath ++ [slash] ++ basename

end Paths

inductive FileMode
  | reg
  | dir
  | lnk
  | other
  deriving DecidableEq, Repr

inductive DType
  | reg
  | dir
  | lnk
  | unknown
  | other
  deriving DecidableEq, Repr

inductive FileType
  | unknown
  | reg
  | dir
  | symlink
  | statFailed
  deriving DecidableEq, Repr

structure DevIno where
  dev : Nat
  ino : Nat
  deriving DecidableEq, Repr

structure Stat where
  stMode : FileMode
  stDev : Nat
  stIno : Nat
  deriving DecidableEq, Repr

structure Dirent where
  dName : Bytes
  dType : DType
  dIno : Nat
  deriving DecidableEq, Repr

/-- The system calls, for directories of type `D` as `opendir` gives them. A path is relative
to the current directory, `fstatat` has the flag `AT_SYMLINK_NOFOLLOW`, and `opendirat`
opens the path of an entry of a directory. `none` is a failure. -/
structure FileSystem (D : Type*) where
  stat : Bytes → Option Stat
  opendir : Bytes → Option D
  readdir : D → List Dirent
  fstatat : D → Bytes → Bool → Option Stat
  opendirat : D → Bytes → Option D

/-- `dev` is `none` for the initial `-1`, and `dir` is what `OpenDir` gives. -/
structure FileID (D : Type*) where
  path : Bytes
  fileType : FileType
  dev : Option Nat := none
  uniqueFileIdentifier : DevIno := ⟨0, 0⟩
  dir : Option D

variable {D : Type*}

def FileMode.fileType : FileMode → FileType
  | .reg => .reg
  | .dir => .dir
  | .lnk => .symlink
  | .other => .unknown

namespace FileID

def setStatInfo (f : FileID D) (statBuf : Stat) : FileID D :=
  { f with
    fileType := statBuf.stMode.fileType
    dev := some statBuf.stDev
    uniqueFileIdentifier := ⟨statBuf.stDev, statBuf.stIno⟩ }

def setDevIno (f : FileID D) (d i : Nat) : FileID D :=
  { f with dev := some d, uniqueFileIdentifier := ⟨d, i⟩ }

/-- The constructor for a path below the current directory, and the `stat` of
`GetFileType`, which follows symlinks. -/
def ofPath (fs : FileSystem D) (pathname : Bytes) : FileID D :=
  let f : FileID D :=
    { path := resolvePath [dot] pathname, fileType := .statFailed, dir := fs.opendir pathname }
  match fs.stat pathname with
  | some statBuf => f.setStatInfo statBuf
  | none => f

/-- The constructor for an entry of a directory. -/
def ofEntry (fs : FileSystem D) (atDir : FileID D) (d : D) (bname : Bytes) (statBuf : Option Stat)
    (type : FileType) (ino : Nat) : FileID D :=
  let f : FileID D :=
    { path := resolvePath atDir.path bname, fileType := type, dir := fs.opendirat d bname }
  let f := match statBuf with
    | some statBuf => f.setStatInfo statBuf
    | none => f
  match atDir.dev with
  | some dev => if ino ≠ 0 then f.setDevIno dev ino else f
  | none => f

/-- The `stat` of `GetUniqueFileIdentifier` where the constructor for an entry has set none. -/
def loadUniqueFileIdentifier (fs : FileSystem D) (d : D) (bname : Bytes) (f : FileID D) : FileID D :=
  match f.dev with
  | some _ => f
  | none =>
    match fs.fstatat d bname false with
    | some statBuf => f.setStatInfo statBuf
    | none => { f with fileType := .statFailed }

end FileID

structure DirTree where
  recurse : Bool
  followSymlinks : Bool
  fileBasenameFilter : Bytes → Bool
  dirBasenameFilter : Bytes → Bool

/-- What becomes of an entry: nothing, a place in the local file queue, or the way to the
directory queue. -/
inductive DirentAction (D : Type*)
  | ignore
  | file (f : FileID D)
  | dir (f : FileID D)

def isDotDir (dname : Bytes) : Bool := dname == [dot] || dname == [dot, dot]

namespace DirTree

/-- The end of `ProcessDirent`, with the type of the entry as far as it is known. -/
def queueDirent (t : DirTree) (fs : FileSystem D) (dse : FileID D) (d : D) (e : Dirent)
    (isFile isDir isUnknown : Bool) (statbuffPtr : Option Stat) : DirentAction D :=
  if isUnknown then .ignore
  else if isFile then
    if t.fileBasenameFilter e.dName then
      .file (.ofEntry fs dse d e.dName statbuffPtr .reg e.dIno)
    else .ignore
  else if isDir then
    if !t.recurse || t.dirBasenameFilter e.dName then .ignore
    else .dir (.ofEntry fs dse d e.dName statbuffPtr .dir e.dIno)
  else .ignore

/-- `ProcessDirent` up to the check for visited directories. `statbuf` is what the
uninitialised buffer holds, and a failed `fstatat` leaves it there. -/
def processDirent (t : DirTree) (fs : FileSystem D) (dse : FileID D) (d : D) (e : Dirent)
    (statbuf : Stat) : DirentAction D :=
  let isDir := e.dType == .dir
  let isFile := e.dType == .reg
  let isSymlink := e.dType == .lnk
  let isUnknown := e.dType == .unknown
  if !isFile && !isDir && !isSymlink && !isUnknown then .ignore
  else if isDotDir e.dName then .ignore
  else if isUnknown || (t.followSymlinks && isSymlink) then
    let statbuf := (fs.fstatat d e.dName (!t.followSymlinks)).getD statbuf
    let isDir := statbuf.stMode == .dir
    let isFile := statbuf.stMode == .reg
    let isSymlink := statbuf.stMode == .lnk
    let isUnknown := isUnknown && !(isDir || isFile || isSymlink)
    t.queueDirent fs dse d e isFile isDir isUnknown (some statbuf)
  else t.queueDirent fs dse d e isFile isDir isUnknown none

end DirTree

def hasDirBeenVisited (visited : List DevIno) (di : DevIno) : Bool × List DevIno :=
  (visited.contains di, visited.insert di)

/-- Where a worker is with its directory: it reads the rest of the entries, it pushes a
directory that was not visited before, or only the close of the directory is left. -/
inductive ReaddirState (D : Type*)
  | reading (dse : FileID D) (d : D) (entries : List Dirent) (localFileQueue : List (FileID D))
  | pushing (dir dse : FileID D) (d : D) (entries : List Dirent) (localFileQueue : List (FileID D))
  | closing

/-- The files pushed to the output queue so far, and the directories visited. -/
structure TraversalState (D : Type*) where
  outQueue : List (FileID D)
  dirHasBeenVisited : List DevIno

namespace DirTree

/-- One step behind `pull_front` in `ReaddirLoop`. -/
def readdirStep (t : DirTree) (fs : FileSystem D) :
    ReaddirState D → TraversalState D → WorkAct (FileID D) (ReaddirState D) (TraversalState D) → Prop
  | .reading _ _ [] localFileQueue, w, a =>
    a = if localFileQueue.isEmpty then .finish
      else .work .closing { w with outQueue := w.outQueue ++ localFileQueue }
  | .reading dse d (e :: entries) localFileQueue, w, a => ∃ statbuf,
    a = match t.processDirent fs dse d e statbuf with
      | .ignore => .work (.reading dse d entries localFileQueue) w
      | .file f => .work (.reading dse d entries (localFileQueue ++ [f])) w
      | .dir f =>
        if t.followSymlinks then
          let f := f.loadUniqueFileIdentifier fs d e.dName
          match hasDirBeenVisited w.dirHasBeenVisited f.uniqueFileIdentifier with
          | (true, _) => .work (.reading dse d entries localFileQueue) w
          | (false, visited) =>
            .work (.pushing f dse d entries localFileQueue) { w with dirHasBeenVisited := visited }
        else .push (.value f) (.reading dse d entries localFileQueue)
  | .pushing f dse d entries localFileQueue, _, a =>
    a = .push (.value f) (.reading dse d entries localFileQueue)
  | .closing, _, a => a = .finish

/-- `ReaddirLoop`. A directory that `OpenDir` fails on is skipped. -/
def readdirLoop (t : DirTree) (fs : FileSystem D) :
    WorkerProgram (FileID D) (ReaddirState D) (TraversalState D) where
  load dse :=
    match dse.dir with
    | none => .closing
    | some d => .reading dse d (fs.readdir d) []
  act := t.readdirStep fs

end DirTree

/-- The first step of `Scandir`: the directories and the files among the start paths, in the
order of their queues. -/
def scandirPaths (fs : FileSystem D) : List Bytes → List (FileID D) × List (FileID D)
  | [] => ([], [])
  | p :: startPaths =>
    let (dirs, files) := scandirPaths fs startPaths
    let fileOrDir := FileID.ofPath fs (cleanUpPath p)
    match fileOrDir.fileType with
    | .reg => (dirs, fileOrDir :: files)
    | .dir => (fileOrDir :: dirs, files)
    | _ => (dirs, files)

/-- `Scandir` with the workers and the master behind the first step. -/
def ScandirInit (fs : FileSystem D) (startPaths : List Bytes) (dirjobs : Nat) :
    PoolState dirjobs (FileID D) (ReaddirState D) (TraversalState D) → Prop :=
  PoolInit dirjobs (scandirPaths fs startPaths).1 ⟨(scandirPaths fs startPaths).2, []⟩

section FileIDs

variable {fs : FileSystem D} {dse : FileID D} {d : D} {bname : Bytes} {statBuf : Option Stat}
  {type : FileType} {ino : Nat}

theorem resolvePath_dot (path : Bytes) : resolvePath [dot] path = path := by
  unfold resolvePath
  split <;> simp

theorem FileID.ofPath_path (path : Bytes) : (FileID.ofPath fs path).path = path := by
  unfold FileID.ofPath
  cases fs.stat path <;> exact resolvePath_dot path

theorem FileID.ofPath_dir (path : Bytes) : (FileID.ofPath fs path).dir = fs.opendir path := by
  unfold FileID.ofPath
  cases fs.stat path <;> rfl

theorem FileID.ofPath_fileType {path : Bytes} {st : Stat} (h : fs.stat path = some st) :
    (FileID.ofPath fs path).fileType = st.stMode.fileType := by
  simp [FileID.ofPath, h, FileID.setStatInfo]

theorem FileID.ofEntry_path :
    (FileID.ofEntry fs dse d bname statBuf type ino).path = resolvePath dse.path bname := by
  unfold FileID.ofEntry
  cases statBuf <;> cases dse.dev <;> by_cases hi : ino = 0 <;>
    simp [hi, FileID.setStatInfo, FileID.setDevIno]

theorem FileID.ofEntry_dir :
    (FileID.ofEntry fs dse d bname statBuf type ino).dir = fs.opendirat d bname := by
  unfold FileID.ofEntry
  cases statBuf <;> cases dse.dev <;> by_cases hi : ino = 0 <;>
    simp [hi, FileID.setStatInfo, FileID.setDevIno]

end FileIDs

end Ucg
