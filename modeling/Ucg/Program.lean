import Ucg.DirTree
import Ucg.IgnoreDir
import Ucg.Print

/-! `main` from the start of its threads on: the traversal threads, the scanner threads and the
output task, over the queues between them. -/

namespace Ucg

open Transition Function

variable {D : Type*} {dirjobs jobs : Nat}

/-- What `main` hands to its threads, and what they meet in the file system. `outcome` is how the
body of the loop of `FileScanner::Run` ends for the file at a path. -/
structure ProgramSetup (D : Type*) where
  dirTree : DirTree
  fileSystem : FileSystem D
  startPaths : List Bytes
  outcome : Bytes → FileOutcome
  outputContext : OutputContext

/-- The filters of `Globber::Run`. -/
def globber (ap : ArgParse) (tm : TypeManager) (fnmatch : Bytes → Bytes → Bool) : DirTree where
  recurse := ap.recurse
  followSymlinks := ap.followSymlinks
  fileBasenameFilter := tm.compileTypeTables.fileShouldBeScanned fnmatch
  dirBasenameFilter := (dirInclusionManager ap).dirShouldBeExcluded

/-- What `main` sets up from the parsed options. -/
def programSetup (ap : ArgParse) (tm : TypeManager) (fnmatch : Bytes → Bytes → Bool)
    (fs : FileSystem D) (outcome : Bytes → FileOutcome) : ProgramSetup D where
  dirTree := globber ap tm fnmatch
  fileSystem := fs
  startPaths := ap.paths
  outcome := outcome
  outputContext := ap.outputContext

/-- Where the thread of `main` stands: in the first loop of `Scandir`, behind the start of the
traversal threads until they are joined, and then as in `MainThreadPc`. -/
inductive ProgramPc
  | startPaths (remaining : List Bytes)
  | traversing
  | joiningScanners
  | closingMatches
  | joiningOutput
  | returned (status : Nat)

/-- The master of the traversal is the thread of `main`. `cout` is what the output task has
written. -/
structure ProgramState (dirjobs jobs : Nat) (D : Type*) where
  main : ProgramPc
  traversal : PoolState dirjobs (FileID D) (ReaddirState D) (TraversalState D)
  filesToScanQueue : SyncQueue FoundFile
  matchQueue : SyncQueue MatchList
  scanners : Fin jobs → Scanner
  outputTask : OutputTask
  firstMatchlistPrinted : Bool
  cout : Bytes

namespace ProgramSetup

variable (setup : ProgramSetup D)

def found (f : FileID D) : FoundFile := ⟨f.path, setup.outcome f.path⟩

def start : ProgramState dirjobs jobs D where
  main := .startPaths setup.startPaths
  traversal := ⟨{}, fun _ => .outside, .start, fun _ => 0, ⟨[], []⟩⟩
  filesToScanQueue := {}
  matchQueue := {}
  scanners := fun _ => {}
  outputTask := {}
  firstMatchlistPrinted := false
  cout := []

end ProgramSetup

namespace ProgramState

variable (setup : ProgramSetup D) (s : ProgramState dirjobs jobs D)

/-- The body of the first loop of `Scandir`. -/
def pushStartPath (p : Bytes) (remaining : List Bytes) : ProgramState dirjobs jobs D :=
  let fileOrDir := FileID.ofPath setup.fileSystem (cleanUpPath p)
  let s := { s with main := .startPaths remaining }
  match fileOrDir.fileType with
  | .reg => { s with
      filesToScanQueue := (s.filesToScanQueue.pushBack (.value (setup.found fileOrDir))).1
      traversal := { s.traversal with
        world := { s.traversal.world with
          outQueue := s.traversal.world.outQueue ++ [fileOrDir] } } }
  | .dir => { s with
      traversal := { s.traversal with
        queue := (s.traversal.queue.pushBack (.value fileOrDir)).1 } }
  | _ => s

/-- The files that a step of the traversal has put out go to the scanner threads. -/
def traverse (u : PoolState dirjobs (FileID D) (ReaddirState D) (TraversalState D)) :
    ProgramState dirjobs jobs D :=
  let files := u.world.outQueue.drop s.traversal.world.outQueue.length
  { s with
    traversal := u
    filesToScanQueue := (s.filesToScanQueue.pushBack (.container (files.map setup.found))).1 }

/-- The output task after a step, with what a print adds to `cout`. -/
def output (out : OutputTask) (lists : SyncQueue MatchList) : ProgramState dirjobs jobs D :=
  let s := { s with outputTask := out, matchQueue := lists }
  if out.pc = .counting then
    { s with
      firstMatchlistPrinted := true
      cout := s.cout ++ out.ml.write setup.outputContext s.firstMatchlistPrinted }
  else s

end ProgramState

inductive ProgramEvent
  | main
  | traversal
  | scanner
  | output
  deriving DecidableEq, Repr

/-- One step of one thread. -/
inductive ProgramStep (setup : ProgramSetup D) :
    ProgramState dirjobs jobs D → ProgramEvent → ProgramState dirjobs jobs D → Prop
  | startPath {s} (p : Bytes) (remaining : List Bytes) (h : s.main = .startPaths (p :: remaining)) :
      ProgramStep setup s .main (s.pushStartPath setup p remaining)
  | startThreads {s} (h : s.main = .startPaths []) :
      ProgramStep setup s .main { s with main := .traversing }
  | traverse {s e u} (h : s.main = .traversing)
      (hstep : PoolStep (setup.dirTree.readdirLoop setup.fileSystem) False s.traversal e u) :
      ProgramStep setup s .traversal (s.traverse setup u)
  | closeFiles {s} (h : s.main = .traversing) (hjoined : s.traversal.master = .joined) :
      ProgramStep setup s .main
        { s with filesToScanQueue := s.filesToScanQueue.close, main := .joiningScanners }
  | joinScanners {s} (h : s.main = .joiningScanners) (hexited : ∀ i, (s.scanners i).pc = .exited) :
      ProgramStep setup s .main { s with main := .closingMatches }
  | closeMatches {s} (h : s.main = .closingMatches) :
      ProgramStep setup s .main { s with matchQueue := s.matchQueue.close, main := .joiningOutput }
  | joinOutput {s} (h : s.main = .joiningOutput) (hexited : s.outputTask.pc = .exited) :
      ProgramStep setup s .main
        { s with main := .returned (if s.outputTask.totalMatchedLines = 0 then 1 else 0) }
  | scanner {s sc files lists} (i : Fin jobs) (movedFrom : MatchList)
      (h : (s.scanners i).run movedFrom s.filesToScanQueue s.matchQueue = some (sc, files, lists)) :
      ProgramStep setup s .scanner
        { s with
          scanners := update s.scanners i sc, filesToScanQueue := files, matchQueue := lists }
  | output {s out lists} (h : s.outputTask.run s.matchQueue = some (out, lists)) :
      ProgramStep setup s .output (s.output setup out lists)

def ProgramReachable (setup : ProgramSetup D) : ProgramState dirjobs jobs D → Prop :=
  Reachable (· = setup.start) (ProgramStep setup)

end Ucg
