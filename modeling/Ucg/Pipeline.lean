import Ucg.Lib.Transition
import Ucg.Match
import Ucg.SyncQueue

/-! The threads of `main`: files go from the globber through the scanner threads to the output
task, over two queues that `main` closes. -/

namespace Ucg

open Transition Function

structure MatchList where
  filename : Bytes := []
  matchList : List Match := []
  deriving DecidableEq, Repr

namespace MatchList

def setFilename (ml : MatchList) (filename : Bytes) : MatchList := { ml with filename := filename }

def addMatches (ml : MatchList) (found : List Match) : MatchList :=
  { ml with matchList := ml.matchList ++ found }

def clear (_ : MatchList) : MatchList := {}

def getNumberOfMatchedLines (ml : MatchList) : Nat := ml.matchList.length

end MatchList

/-- How the body of the loop in `FileScanner::Run` ends for a file. -/
inductive FileOutcome
  | empty
  | fileException
  | systemError
  | scanned (found : List Match)

structure FoundFile where
  path : Bytes
  outcome : FileOutcome

/-- Where a scanner thread stands: before `pull_front`, in its wait, with a new file, behind
`ScanFile`, before `push_back`, before `clear`, or behind the loop. -/
inductive ScannerPc
  | outside
  | waiting
  | opening
  | scanned
  | pushing
  | clearing
  | exited
  deriving DecidableEq, Repr

/-- The variables of the loop, which all files share. -/
structure Scanner where
  pc : ScannerPc := .outside
  nextFile : Option FoundFile := none
  ml : MatchList := {}

inductive OutputPc
  | outside
  | waiting
  | printing
  | counting
  | exited
  deriving DecidableEq, Repr

structure OutputTask where
  pc : OutputPc := .outside
  ml : MatchList := {}
  printed : List MatchList := []
  totalMatchedLines : Nat := 0

inductive MainThreadPc
  | globbing (remaining : List FoundFile)
  | joiningScanners
  | closingMatches
  | joiningOutput
  | returned (status : Nat)

structure PipelineState (n : Nat) where
  filesToScanQueue : SyncQueue FoundFile
  matchQueue : SyncQueue MatchList
  scanners : Fin n → Scanner
  outputTask : OutputTask
  main : MainThreadPc

/-- One step of `FileScanner::Run`. A wait ends when its predicate holds, and `movedFrom` is
what `push_back` leaves of the list that it has moved. `none` is a thread that has to wait. -/
def Scanner.run (movedFrom : MatchList) (sc : Scanner) (files : SyncQueue FoundFile)
    (lists : SyncQueue MatchList) :
    Option (Scanner × SyncQueue FoundFile × SyncQueue MatchList) :=
  match sc.pc with
  | .outside => some ({ sc with pc := .waiting }, files.enterPull.1, lists)
  | .waiting =>
    if files.canPull then
      match files.leavePull with
      | (files, some f) => some ({ sc with pc := .opening, nextFile := some f }, files, lists)
      | (files, none) => some ({ sc with pc := .exited }, files, lists)
    else none
  | .opening =>
    match sc.nextFile with
    | none => none
    | some f =>
      match f.outcome with
      | .scanned found => some ({ sc with pc := .scanned, ml := sc.ml.addMatches found }, files, lists)
      | .empty | .fileException | .systemError => some ({ sc with pc := .outside }, files, lists)
  | .scanned =>
    if sc.ml.matchList = [] then some ({ sc with pc := .outside }, files, lists)
    else
      match sc.nextFile with
      | none => none
      | some f => some ({ sc with pc := .pushing, ml := sc.ml.setFilename f.path }, files, lists)
  | .pushing =>
    match lists.pushBack (.value sc.ml) with
    | (lists, .success) => some ({ sc with pc := .clearing, ml := movedFrom }, files, lists)
    | (lists, .closed) => some ({ sc with pc := .clearing }, files, lists)
  | .clearing => some ({ sc with pc := .outside, ml := sc.ml.clear }, files, lists)
  | .exited => none

/-- One step of `OutputTask::Run`. -/
def OutputTask.run (out : OutputTask) (lists : SyncQueue MatchList) :
    Option (OutputTask × SyncQueue MatchList) :=
  match out.pc with
  | .outside => some ({ out with pc := .waiting }, lists.enterPull.1)
  | .waiting =>
    if lists.canPull then
      match lists.leavePull with
      | (lists, some ml) => some ({ out with pc := .printing, ml := ml }, lists)
      | (lists, none) => some ({ out with pc := .exited }, lists)
    else none
  | .printing => some ({ out with pc := .counting, printed := out.printed ++ [out.ml] }, lists)
  | .counting =>
    some ({ out with
      pc := .outside
      totalMatchedLines := out.totalMatchedLines + out.ml.getNumberOfMatchedLines }, lists)
  | .exited => none

namespace PipelineState

variable {n : Nat}

def start (files : List FoundFile) : PipelineState n where
  filesToScanQueue := {}
  matchQueue := {}
  scanners := fun _ => {}
  outputTask := {}
  main := .globbing files

/-- One step of `main` behind the start of the threads. `globber.Run` pushes the files. -/
def runMain (s : PipelineState n) : Option (PipelineState n) :=
  match s.main with
  | .globbing (f :: remaining) =>
    some { s with
      filesToScanQueue := (s.filesToScanQueue.pushBack (.value f)).1
      main := .globbing remaining }
  | .globbing [] =>
    some { s with filesToScanQueue := s.filesToScanQueue.close, main := .joiningScanners }
  | .joiningScanners =>
    if ∀ i, (s.scanners i).pc = .exited then some { s with main := .closingMatches } else none
  | .closingMatches => some { s with matchQueue := s.matchQueue.close, main := .joiningOutput }
  | .joiningOutput =>
    if s.outputTask.pc = .exited then
      some { s with main := .returned (if s.outputTask.totalMatchedLines = 0 then 1 else 0) }
    else none
  | .returned _ => none

end PipelineState

inductive PipelineEvent (n : Nat)
  | main
  | scanner (i : Fin n) (movedFrom : MatchList)
  | output

def PipelineState.run {n : Nat} (s : PipelineState n) : PipelineEvent n → Option (PipelineState n)
  | .main => s.runMain
  | .scanner i movedFrom =>
    ((s.scanners i).run movedFrom s.filesToScanQueue s.matchQueue).map fun (sc, files, lists) =>
      { s with scanners := update s.scanners i sc, filesToScanQueue := files, matchQueue := lists }
  | .output =>
    (s.outputTask.run s.matchQueue).map fun (out, lists) =>
      { s with outputTask := out, matchQueue := lists }

def PipelineStep {n : Nat} (s : PipelineState n) (e : PipelineEvent n) (t : PipelineState n) : Prop :=
  s.run e = some t

def PipelineReachable {n : Nat} (files : List FoundFile) : PipelineState n → Prop :=
  Reachable (· = PipelineState.start files) PipelineStep

variable {n : Nat} {s t : PipelineState n}

section Moves

variable {movedFrom : MatchList} {queue queue' : SyncQueue FoundFile}
  {lists lists' : SyncQueue MatchList}

/-- What a step of a scanner thread can do. -/
inductive ScannerMove (movedFrom : MatchList) (sc : Scanner) (queue : SyncQueue FoundFile)
    (lists : SyncQueue MatchList) :
    Scanner → SyncQueue FoundFile → SyncQueue MatchList → Prop
  | enter : sc.pc = .outside →
      ScannerMove movedFrom sc queue lists { sc with pc := .waiting } queue.enterPull.1 lists
  | take (f : FoundFile) (rest : List FoundFile) : sc.pc = .waiting →
      queue.underlyingQueue = f :: rest →
      ScannerMove movedFrom sc queue lists { sc with pc := .opening, nextFile := some f }
        { queue with numWaitingThreads := queue.numWaitingThreads - 1, underlyingQueue := rest } lists
  | exit : sc.pc = .waiting → queue.underlyingQueue = [] → queue.closed = true →
      ScannerMove movedFrom sc queue lists { sc with pc := .exited }
        { queue with numWaitingThreads := queue.numWaitingThreads - 1 } lists
  | skip (f : FoundFile) : sc.pc = .opening → sc.nextFile = some f →
      (∀ found, f.outcome ≠ .scanned found) →
      ScannerMove movedFrom sc queue lists { sc with pc := .outside } queue lists
  | scan (f : FoundFile) (found : List Match) : sc.pc = .opening → sc.nextFile = some f →
      f.outcome = .scanned found →
      ScannerMove movedFrom sc queue lists { sc with pc := .scanned, ml := sc.ml.addMatches found }
        queue lists
  | noMatch : sc.pc = .scanned → sc.ml.matchList = [] →
      ScannerMove movedFrom sc queue lists { sc with pc := .outside } queue lists
  | name (f : FoundFile) : sc.pc = .scanned → sc.ml.matchList ≠ [] → sc.nextFile = some f →
      ScannerMove movedFrom sc queue lists
        { sc with pc := .pushing, ml := sc.ml.setFilename f.path } queue lists
  | push : sc.pc = .pushing → lists.closed = false →
      ScannerMove movedFrom sc queue lists { sc with pc := .clearing, ml := movedFrom } queue
        { lists with underlyingQueue := lists.underlyingQueue ++ [sc.ml] }
  | refused : sc.pc = .pushing → lists.closed = true →
      ScannerMove movedFrom sc queue lists { sc with pc := .clearing } queue lists
  | clear : sc.pc = .clearing →
      ScannerMove movedFrom sc queue lists { sc with pc := .outside, ml := {} } queue lists

theorem Scanner.run_cases {sc sc' : Scanner}
    (h : sc.run movedFrom queue lists = some (sc', queue', lists')) :
    ScannerMove movedFrom sc queue lists sc' queue' lists' := by
  cases hpc : sc.pc with
  | outside =>
    simp only [Scanner.run, hpc, Option.some.injEq, Prod.mk.injEq] at h
    obtain ⟨rfl, rfl, rfl⟩ := h
    exact .enter hpc
  | waiting =>
    simp only [Scanner.run, hpc] at h
    by_cases hpull : queue.canPull = true
    · rw [if_pos hpull] at h
      cases hitems : queue.underlyingQueue with
      | nil =>
        have hclosed : queue.closed = true := by simpa [SyncQueue.canPull, hitems] using hpull
        simp only [SyncQueue.leavePull, hitems, Option.some.injEq, Prod.mk.injEq] at h
        obtain ⟨rfl, rfl, rfl⟩ := h
        rw [← hitems]
        exact .exit hpc hitems hclosed
      | cons f rest =>
        simp only [SyncQueue.leavePull, hitems, Option.some.injEq, Prod.mk.injEq] at h
        obtain ⟨rfl, rfl, rfl⟩ := h
        exact .take f rest hpc hitems
    · simp [if_neg hpull] at h
  | opening =>
    simp only [Scanner.run, hpc] at h
    cases hfile : sc.nextFile with
    | none => simp [hfile] at h
    | some f =>
      rw [hfile] at h
      cases houtcome : f.outcome with
      | scanned found =>
        simp only [houtcome, Option.some.injEq, Prod.mk.injEq] at h
        obtain ⟨rfl, rfl, rfl⟩ := h
        rw [← hfile]
        exact .scan f found hpc hfile houtcome
      | empty | fileException | systemError =>
        simp only [houtcome, Option.some.injEq, Prod.mk.injEq] at h
        obtain ⟨rfl, rfl, rfl⟩ := h
        rw [← hfile]
        exact .skip f hpc hfile (by simp [houtcome])
  | scanned =>
    simp only [Scanner.run, hpc] at h
    by_cases hempty : sc.ml.matchList = []
    · rw [if_pos hempty] at h
      simp only [Option.some.injEq, Prod.mk.injEq] at h
      obtain ⟨rfl, rfl, rfl⟩ := h
      exact .noMatch hpc hempty
    · rw [if_neg hempty] at h
      cases hfile : sc.nextFile with
      | none => simp [hfile] at h
      | some f =>
        simp only [hfile, Option.some.injEq, Prod.mk.injEq] at h
        obtain ⟨rfl, rfl, rfl⟩ := h
        rw [← hfile]
        exact .name f hpc hempty hfile
  | pushing =>
    simp only [Scanner.run, hpc] at h
    cases hclosed : lists.closed with
    | true =>
      simp only [SyncQueue.pushBack_of_closed hclosed, Option.some.injEq, Prod.mk.injEq] at h
      obtain ⟨rfl, rfl, rfl⟩ := h
      exact .refused hpc hclosed
    | false =>
      simp only [SyncQueue.pushBack_of_open hclosed, Option.some.injEq, Prod.mk.injEq] at h
      obtain ⟨rfl, rfl, rfl⟩ := h
      exact .push hpc hclosed
  | clearing =>
    simp only [Scanner.run, hpc, Option.some.injEq, Prod.mk.injEq] at h
    obtain ⟨rfl, rfl, rfl⟩ := h
    exact .clear hpc
  | exited => simp [Scanner.run, hpc] at h

/-- What a step of the output task can do. -/
inductive OutputMove (out : OutputTask) (lists : SyncQueue MatchList) :
    OutputTask → SyncQueue MatchList → Prop
  | enter : out.pc = .outside → OutputMove out lists { out with pc := .waiting } lists.enterPull.1
  | take (ml : MatchList) (rest : List MatchList) : out.pc = .waiting →
      lists.underlyingQueue = ml :: rest →
      OutputMove out lists { out with pc := .printing, ml := ml }
        { lists with numWaitingThreads := lists.numWaitingThreads - 1, underlyingQueue := rest }
  | exit : out.pc = .waiting → lists.underlyingQueue = [] → lists.closed = true →
      OutputMove out lists { out with pc := .exited }
        { lists with numWaitingThreads := lists.numWaitingThreads - 1 }
  | print : out.pc = .printing →
      OutputMove out lists { out with pc := .counting, printed := out.printed ++ [out.ml] } lists
  | count : out.pc = .counting →
      OutputMove out lists { out with
        pc := .outside
        totalMatchedLines := out.totalMatchedLines + out.ml.getNumberOfMatchedLines } lists

theorem OutputTask.run_cases {out out' : OutputTask} (h : out.run lists = some (out', lists')) :
    OutputMove out lists out' lists' := by
  cases hpc : out.pc with
  | outside =>
    simp only [OutputTask.run, hpc, Option.some.injEq, Prod.mk.injEq] at h
    obtain ⟨rfl, rfl⟩ := h
    exact .enter hpc
  | waiting =>
    simp only [OutputTask.run, hpc] at h
    by_cases hpull : lists.canPull = true
    · rw [if_pos hpull] at h
      cases hitems : lists.underlyingQueue with
      | nil =>
        have hclosed : lists.closed = true := by simpa [SyncQueue.canPull, hitems] using hpull
        simp only [SyncQueue.leavePull, hitems, Option.some.injEq, Prod.mk.injEq] at h
        obtain ⟨rfl, rfl⟩ := h
        rw [← hitems]
        exact .exit hpc hitems hclosed
      | cons ml rest =>
        simp only [SyncQueue.leavePull, hitems, Option.some.injEq, Prod.mk.injEq] at h
        obtain ⟨rfl, rfl⟩ := h
        exact .take ml rest hpc hitems
    · simp [if_neg hpull] at h
  | printing =>
    simp only [OutputTask.run, hpc, Option.some.injEq, Prod.mk.injEq] at h
    obtain ⟨rfl, rfl⟩ := h
    exact .print hpc
  | counting =>
    simp only [OutputTask.run, hpc, Option.some.injEq, Prod.mk.injEq] at h
    obtain ⟨rfl, rfl⟩ := h
    exact .count hpc
  | exited => simp [OutputTask.run, hpc] at h

/-- What a step of `main` can do. -/
inductive MainMove (s : PipelineState n) : PipelineState n → Prop
  | push (f : FoundFile) (remaining : List FoundFile) : s.main = .globbing (f :: remaining) →
      MainMove s { s with
        filesToScanQueue := (s.filesToScanQueue.pushBack (.value f)).1
        main := .globbing remaining }
  | closeFiles : s.main = .globbing [] →
      MainMove s { s with filesToScanQueue := s.filesToScanQueue.close, main := .joiningScanners }
  | joinScanners : s.main = .joiningScanners → (∀ i, (s.scanners i).pc = .exited) →
      MainMove s { s with main := .closingMatches }
  | closeMatches : s.main = .closingMatches →
      MainMove s { s with matchQueue := s.matchQueue.close, main := .joiningOutput }
  | joinOutput : s.main = .joiningOutput → s.outputTask.pc = .exited →
      MainMove s { s with
        main := .returned (if s.outputTask.totalMatchedLines = 0 then 1 else 0) }

theorem PipelineState.runMain_cases (h : s.runMain = some t) : MainMove s t := by
  cases hmain : s.main with
  | globbing remaining =>
    cases remaining with
    | nil =>
      simp only [PipelineState.runMain, hmain, Option.some.injEq] at h
      exact h ▸ .closeFiles hmain
    | cons f remaining =>
      simp only [PipelineState.runMain, hmain, Option.some.injEq] at h
      exact h ▸ .push f remaining hmain
  | joiningScanners =>
    simp only [PipelineState.runMain, hmain] at h
    by_cases hexited : ∀ i, (s.scanners i).pc = .exited
    · rw [if_pos hexited, Option.some.injEq] at h
      exact h ▸ .joinScanners hmain hexited
    · simp [if_neg hexited] at h
  | closingMatches =>
    simp only [PipelineState.runMain, hmain, Option.some.injEq] at h
    exact h ▸ .closeMatches hmain
  | joiningOutput =>
    simp only [PipelineState.runMain, hmain] at h
    by_cases hexited : s.outputTask.pc = .exited
    · rw [if_pos hexited, Option.some.injEq] at h
      exact h ▸ .joinOutput hmain hexited
    · simp [if_neg hexited] at h
  | returned status => simp [PipelineState.runMain, hmain] at h

theorem PipelineStep.cases {e : PipelineEvent n} (h : PipelineStep s e t) :
    MainMove s t ∨
    (∃ i movedFrom sc queue lists,
      ScannerMove movedFrom (s.scanners i) s.filesToScanQueue s.matchQueue sc queue lists ∧
      t = { s with scanners := update s.scanners i sc, filesToScanQueue := queue, matchQueue := lists }) ∨
    ∃ out lists, OutputMove s.outputTask s.matchQueue out lists ∧
      t = { s with outputTask := out, matchQueue := lists } := by
  cases e with
  | main => exact Or.inl (PipelineState.runMain_cases h)
  | scanner i movedFrom =>
    obtain ⟨⟨sc, queue, lists⟩, hrun, rfl⟩ := Option.map_eq_some_iff.mp h
    exact Or.inr (Or.inl ⟨i, movedFrom, sc, queue, lists, Scanner.run_cases hrun, rfl⟩)
  | output =>
    obtain ⟨⟨out, lists⟩, hrun, rfl⟩ := Option.map_eq_some_iff.mp h
    exact Or.inr (Or.inr ⟨out, lists, OutputTask.run_cases hrun, rfl⟩)

end Moves

end Ucg
