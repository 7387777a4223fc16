import Mathlib.Algebra.BigOperators.Group.Multiset.Basic
import Ucg.Pipeline

/-! What has been printed when `main` returns, its exit status, and that it does return. -/

namespace Ucg

open Transition Function

variable {n : Nat} {files : List FoundFile} {s t : PipelineState n}

section Phases

/-- How far `main` is. -/
def MainThreadPc.phase : MainThreadPc → Nat
  | globbing _ => 0
  | joiningScanners => 1
  | closingMatches => 2
  | joiningOutput => 3
  | returned _ => 4

/-- When the queues are closed, and which threads have ended. -/
structure Phases (s : PipelineState n) : Prop where
  filesClosed : s.filesToScanQueue.closed = true ↔ 1 ≤ s.main.phase
  listsClosed : s.matchQueue.closed = true ↔ 3 ≤ s.main.phase
  scannerExited : ∀ i, (s.scanners i).pc = .exited →
    s.filesToScanQueue.closed = true ∧ s.filesToScanQueue.underlyingQueue = []
  joined : 2 ≤ s.main.phase → ∀ i, (s.scanners i).pc = .exited
  outputExited : s.outputTask.pc = .exited →
    s.matchQueue.closed = true ∧ s.matchQueue.underlyingQueue = []
  returned : ∀ status, s.main = .returned status → s.outputTask.pc = .exited ∧
    status = if s.outputTask.totalMatchedLines = 0 then 1 else 0

theorem Phases.start : Phases (PipelineState.start files : PipelineState n) where
  filesClosed := by simp [PipelineState.start, MainThreadPc.phase]
  listsClosed := by simp [PipelineState.start, MainThreadPc.phase]
  scannerExited := by simp [PipelineState.start]
  joined := by simp [PipelineState.start, MainThreadPc.phase]
  outputExited := by simp [PipelineState.start]
  returned := by simp [PipelineState.start]

theorem Phases.mainMove (h : Phases s) (hmove : MainMove s t) : Phases t := by
  cases hmove with
  | push f remaining hmain =>
    have hopen : s.filesToScanQueue.closed = false := by
      simpa [hmain, MainThreadPc.phase] using h.filesClosed
    have hscanners : ∀ i, (s.scanners i).pc ≠ .exited := fun i hi => by
      simp [(h.scannerExited i hi).1] at hopen
    rw [SyncQueue.pushBack_of_open hopen]
    refine ⟨?_, ?_, fun i hi => (hscanners i hi).elim, by simp [MainThreadPc.phase],
      h.outputExited, by simp⟩
    · simp [hopen, MainThreadPc.phase]
    · simpa [hmain, MainThreadPc.phase] using h.listsClosed
  | closeFiles hmain =>
    refine ⟨by simp [SyncQueue.close, MainThreadPc.phase], ?_,
      fun i hi => ⟨rfl, (h.scannerExited i hi).2⟩, by simp [MainThreadPc.phase], h.outputExited,
      by simp⟩
    simpa [hmain, MainThreadPc.phase] using h.listsClosed
  | joinScanners hmain hexited =>
    refine ⟨?_, ?_, h.scannerExited, fun _ => hexited, h.outputExited, by simp⟩
    · simpa [hmain, MainThreadPc.phase] using h.filesClosed
    · simpa [hmain, MainThreadPc.phase] using h.listsClosed
  | closeMatches hmain =>
    have hjoined := h.joined (by simp [hmain, MainThreadPc.phase])
    refine ⟨?_, by simp [SyncQueue.close, MainThreadPc.phase], h.scannerExited, fun _ => hjoined,
      fun ho => ⟨rfl, (h.outputExited ho).2⟩, by simp⟩
    simpa [hmain, MainThreadPc.phase] using h.filesClosed
  | joinOutput hmain hexited =>
    have hjoined := h.joined (by simp [hmain, MainThreadPc.phase])
    refine ⟨?_, ?_, h.scannerExited, fun _ => hjoined, h.outputExited, fun status hstatus => ?_⟩
    · simpa [hmain, MainThreadPc.phase] using h.filesClosed
    · simpa [hmain, MainThreadPc.phase] using h.listsClosed
    · exact ⟨hexited, (MainThreadPc.returned.inj hstatus).symm⟩

theorem ScannerMove.frame {movedFrom : MatchList} {sc sc' : Scanner}
    {queue queue' : SyncQueue FoundFile} {lists lists' : SyncQueue MatchList}
    (h : ScannerMove movedFrom sc queue lists sc' queue' lists') :
    queue'.closed = queue.closed ∧ lists'.closed = lists.closed ∧
      (queue.underlyingQueue = [] → queue'.underlyingQueue = []) ∧
      (sc'.pc = .exited → queue.closed = true ∧ queue'.underlyingQueue = []) ∧
      sc.pc ≠ .exited := by
  cases h with
  | take f rest hpc hitems => exact ⟨rfl, rfl, by simp [hitems], by simp, by simp [hpc]⟩
  | exit hpc hitems hclosed => exact ⟨rfl, rfl, id, fun _ => ⟨hclosed, hitems⟩, by simp [hpc]⟩
  | enter hpc => exact ⟨rfl, rfl, id, by simp, by simp [hpc]⟩
  | skip f hpc hfile houtcome => exact ⟨rfl, rfl, id, by simp, by simp [hpc]⟩
  | scan f found hpc hfile houtcome => exact ⟨rfl, rfl, id, by simp, by simp [hpc]⟩
  | noMatch hpc hempty => exact ⟨rfl, rfl, id, by simp, by simp [hpc]⟩
  | name f hpc hempty hfile => exact ⟨rfl, rfl, id, by simp, by simp [hpc]⟩
  | push hpc hopen => exact ⟨rfl, rfl, id, by simp, by simp [hpc]⟩
  | refused hpc hclosed => exact ⟨rfl, rfl, id, by simp, by simp [hpc]⟩
  | clear hpc => exact ⟨rfl, rfl, id, by simp, by simp [hpc]⟩

theorem Phases.listsOpen (h : Phases s) {i : Fin n} (hi : (s.scanners i).pc ≠ .exited) :
    s.main.phase < 2 ∧ s.matchQueue.closed = false := by
  have hphase : s.main.phase < 2 := not_le.mp fun hle => hi (h.joined hle i)
  refine ⟨hphase, ?_⟩
  cases hclosed : s.matchQueue.closed with
  | false => rfl
  | true =>
    have := h.listsClosed.mp hclosed
    omega

theorem Phases.scannerMove (h : Phases s) {movedFrom : MatchList} {i : Fin n} {sc : Scanner}
    {queue : SyncQueue FoundFile} {lists : SyncQueue MatchList}
    (hmove : ScannerMove movedFrom (s.scanners i) s.filesToScanQueue s.matchQueue sc queue lists) :
    Phases { s with
      scanners := update s.scanners i sc, filesToScanQueue := queue, matchQueue := lists } := by
  obtain ⟨hfiles, hlists, hempty, hexit, hpc⟩ := hmove.frame
  obtain ⟨hphase, hopen⟩ := h.listsOpen hpc
  have hrunning : s.outputTask.pc ≠ .exited := fun ho => by simp [(h.outputExited ho).1] at hopen
  refine ⟨hfiles ▸ h.filesClosed, hlists ▸ h.listsClosed, fun j hj => ?_,
    fun hle => absurd hle (not_le.mpr hphase), fun ho => (hrunning ho).elim, h.returned⟩
  by_cases hji : j = i
  · subst hji
    dsimp only at hj
    rw [update_self] at hj
    exact ⟨hfiles.trans (hexit hj).1, (hexit hj).2⟩
  · dsimp only at hj
    rw [update_of_ne hji] at hj
    obtain ⟨hclosed, hitems⟩ := h.scannerExited j hj
    exact ⟨hfiles.trans hclosed, hempty hitems⟩

theorem Phases.outputMove (h : Phases s) {out : OutputTask} {lists : SyncQueue MatchList}
    (hmove : OutputMove s.outputTask s.matchQueue out lists) :
    Phases { s with outputTask := out, matchQueue := lists } := by
  have hreturned : s.outputTask.pc ≠ .exited → ∀ status, s.main ≠ .returned status :=
    fun hpc status hmain => hpc (h.returned status hmain).1
  cases hmove with
  | enter hpc =>
    exact ⟨h.filesClosed, h.listsClosed, h.scannerExited, h.joined, by simp,
      fun status hmain => (hreturned (by simp [hpc]) status hmain).elim⟩
  | take ml rest hpc hitems =>
    exact ⟨h.filesClosed, h.listsClosed, h.scannerExited, h.joined, by simp,
      fun status hmain => (hreturned (by simp [hpc]) status hmain).elim⟩
  | exit hpc hitems hclosed =>
    exact ⟨h.filesClosed, h.listsClosed, h.scannerExited, h.joined, fun _ => ⟨hclosed, hitems⟩,
      fun status hmain => (hreturned (by simp [hpc]) status hmain).elim⟩
  | print hpc =>
    exact ⟨h.filesClosed, h.listsClosed, h.scannerExited, h.joined, by simp,
      fun status hmain => (hreturned (by simp [hpc]) status hmain).elim⟩
  | count hpc =>
    exact ⟨h.filesClosed, h.listsClosed, h.scannerExited, h.joined, by simp,
      fun status hmain => (hreturned (by simp [hpc]) status hmain).elim⟩

theorem PipelineReachable.phases (h : PipelineReachable files s) : Phases s := by
  refine Reachable.invariant ?_ ?_ h
  · rintro s rfl
    exact Phases.start
  · intro s e t _ hs hstep
    rcases hstep.cases with hmain | ⟨i, movedFrom, sc, queue, lists, hmove, rfl⟩ |
      ⟨out, lists, hmove, rfl⟩
    · exact hs.mainMove hmain
    · exact hs.scannerMove hmove
    · exact hs.outputMove hmove

end Phases

section Balance

/-- The lists that are to be printed for a file. -/
def FoundFile.matchLists (f : FoundFile) : List MatchList :=
  match f.outcome with
  | .scanned [] => []
  | .scanned found => [⟨f.path, found⟩]
  | _ => []

def expectedLists (files : List FoundFile) : Multiset MatchList := ↑(files.flatMap (·.matchLists))

/-- What a scanner thread has in hand. -/
def Scanner.held (sc : Scanner) : Multiset MatchList :=
  match sc.pc with
  | .opening | .scanned => ↑((sc.nextFile.map (·.matchLists)).getD [])
  | .pushing => {sc.ml}
  | _ => 0

def OutputTask.held (out : OutputTask) : Multiset MatchList :=
  if out.pc = .printing then {out.ml} else 0

def MainThreadPc.remaining : MainThreadPc → List FoundFile
  | globbing remaining => remaining
  | _ => []

/-- The list is empty while the thread waits and when it gets a file, and behind `ScanFile` it has
the matches of that file and no others. -/
def Scanner.Good (sc : Scanner) : Prop :=
  match sc.pc with
  | .outside | .waiting => sc.ml.matchList = []
  | .opening => sc.ml.matchList = [] ∧ ∃ f, sc.nextFile = some f
  | .scanned => ∃ f, sc.nextFile = some f ∧ f.outcome = .scanned sc.ml.matchList
  | _ => True

/-- Nothing is lost, doubled or mixed up between the files and the printed lists. -/
structure Balance (files : List FoundFile) (s : PipelineState n) : Prop where
  good : ∀ i, (s.scanners i).Good
  lists : ↑s.outputTask.printed + s.outputTask.held + ↑s.matchQueue.underlyingQueue +
    ∑ i, (s.scanners i).held + expectedLists s.filesToScanQueue.underlyingQueue +
    expectedLists s.main.remaining = expectedLists files
  counted : s.outputTask.totalMatchedLines +
    (if s.outputTask.pc = .counting then s.outputTask.ml.getNumberOfMatchedLines else 0) =
      (s.outputTask.printed.map (·.getNumberOfMatchedLines)).sum

@[simp] theorem expectedLists_nil : expectedLists [] = 0 := rfl

@[simp] theorem expectedLists_cons (f : FoundFile) (rest : List FoundFile) :
    expectedLists (f :: rest) = ↑f.matchLists + expectedLists rest := by
  simp [expectedLists]

@[simp] theorem expectedLists_append (front back : List FoundFile) :
    expectedLists (front ++ back) = expectedLists front + expectedLists back := by
  simp [expectedLists]

theorem Balance.start : Balance files (PipelineState.start files : PipelineState n) where
  good i := rfl
  lists := by simp [PipelineState.start, OutputTask.held, Scanner.held, MainThreadPc.remaining]
  counted := by simp [PipelineState.start]

theorem Balance.mainMove (h : Balance files s) (hphases : Phases s) (hmove : MainMove s t) :
    Balance files t := by
  cases hmove with
  | push f remaining hmain =>
    have hopen : s.filesToScanQueue.closed = false := by
      simpa [hmain, MainThreadPc.phase] using hphases.filesClosed
    have hlists := h.lists
    rw [hmain] at hlists
    rw [SyncQueue.pushBack_of_open hopen]
    refine ⟨h.good, ?_, h.counted⟩
    simpa [MainThreadPc.remaining, PushArg.values, add_assoc] using hlists
  | closeFiles hmain =>
    exact ⟨h.good, by simpa [hmain, MainThreadPc.remaining, SyncQueue.close] using h.lists,
      h.counted⟩
  | joinScanners hmain hexited =>
    exact ⟨h.good, by simpa [hmain, MainThreadPc.remaining, SyncQueue.close] using h.lists,
      h.counted⟩
  | closeMatches hmain =>
    exact ⟨h.good, by simpa [hmain, MainThreadPc.remaining, SyncQueue.close] using h.lists,
      h.counted⟩
  | joinOutput hmain hexited =>
    exact ⟨h.good, by simpa [hmain, MainThreadPc.remaining, SyncQueue.close] using h.lists,
      h.counted⟩

theorem matchLists_of_scanned {f : FoundFile} {found : List Match} (h : f.outcome = .scanned found)
    (hfound : found ≠ []) : f.matchLists = [⟨f.path, found⟩] := by
  cases found with
  | nil => exact (hfound rfl).elim
  | cons m rest => simp [FoundFile.matchLists, h]

theorem ScannerMove.balance {movedFrom : MatchList} {sc sc' : Scanner}
    {queue queue' : SyncQueue FoundFile} {lists lists' : SyncQueue MatchList}
    (h : ScannerMove movedFrom sc queue lists sc' queue' lists') (hgood : sc.Good)
    (hopen : lists.closed = false) :
    sc'.Good ∧ (lists'.underlyingQueue : Multiset MatchList) + sc'.held +
      expectedLists queue'.underlyingQueue =
        lists.underlyingQueue + sc.held + expectedLists queue.underlyingQueue := by
  cases h with
  | enter hpc =>
    have hml : sc.ml.matchList = [] := by simpa [Scanner.Good, hpc] using hgood
    exact ⟨hml, by simp [Scanner.held, hpc, SyncQueue.enterPull]⟩
  | take f rest hpc hitems =>
    have hml : sc.ml.matchList = [] := by simpa [Scanner.Good, hpc] using hgood
    exact ⟨⟨hml, f, rfl⟩, by simp [Scanner.held, hpc, hitems, -Multiset.coe_add, add_assoc]⟩
  | exit hpc hitems hclosed => exact ⟨trivial, by simp [Scanner.held, hpc]⟩
  | skip f hpc hfile houtcome =>
    have hml : sc.ml.matchList = [] := by
      rw [Scanner.Good, hpc] at hgood
      exact hgood.1
    have hnone : f.matchLists = [] := by
      cases hout : f.outcome with
      | scanned found => exact (houtcome found hout).elim
      | empty | fileException | systemError => simp [FoundFile.matchLists, hout]
    exact ⟨hml, by simp [Scanner.held, hpc, hfile, hnone]⟩
  | scan f found hpc hfile houtcome =>
    have hml : sc.ml.matchList = [] := by
      rw [Scanner.Good, hpc] at hgood
      exact hgood.1
    refine ⟨⟨f, hfile, ?_⟩, by simp [Scanner.held, hpc]⟩
    simpa [MatchList.addMatches, hml] using houtcome
  | noMatch hpc hempty =>
    obtain ⟨f, hfile, houtcome⟩ : ∃ f, sc.nextFile = some f ∧
        f.outcome = .scanned sc.ml.matchList := by simpa [Scanner.Good, hpc] using hgood
    have hnone : f.matchLists = [] := by simp [FoundFile.matchLists, houtcome, hempty]
    exact ⟨hempty, by simp [Scanner.held, hpc, hfile, hnone]⟩
  | name f hpc hne hfile =>
    obtain ⟨f', hfile', houtcome⟩ : ∃ f, sc.nextFile = some f ∧
        f.outcome = .scanned sc.ml.matchList := by simpa [Scanner.Good, hpc] using hgood
    obtain rfl := Option.some.inj (hfile.symm.trans hfile')
    exact ⟨trivial, by simp [Scanner.held, hpc, hfile, matchLists_of_scanned houtcome hne,
      MatchList.setFilename]⟩
  | push hpc hopen => exact ⟨trivial, by simp [Scanner.held, hpc, ← Multiset.coe_add]⟩
  | refused hpc hclosed => simp [hclosed] at hopen
  | clear hpc => exact ⟨rfl, by simp [Scanner.held, hpc]⟩

theorem Balance.scannerMove (h : Balance files s) (hphases : Phases s) {movedFrom : MatchList}
    {i : Fin n} {sc : Scanner} {queue : SyncQueue FoundFile} {lists : SyncQueue MatchList}
    (hmove : ScannerMove movedFrom (s.scanners i) s.filesToScanQueue s.matchQueue sc queue lists) :
    Balance files { s with
      scanners := update s.scanners i sc, filesToScanQueue := queue, matchQueue := lists } := by
  obtain ⟨-, -, -, -, hpc⟩ := hmove.frame
  obtain ⟨hgood, hbalance⟩ := hmove.balance (h.good i) (hphases.listsOpen hpc).2
  have hsum := sum_update Scanner.held s.scanners i sc
  refine ⟨fun j => ?_, ?_, h.counted⟩
  · by_cases hji : j = i
    · subst hji
      simpa using hgood
    · simpa [update_of_ne hji] using h.good j
  · rw [← h.lists]
    refine add_right_cancel (b := (s.scanners i).held + sc.held) ?_
    dsimp only
    calc _ = ↑s.outputTask.printed + s.outputTask.held + expectedLists s.main.remaining +
          (↑lists.underlyingQueue + sc.held + expectedLists queue.underlyingQueue) +
          (∑ j, (update s.scanners i sc j).held + (s.scanners i).held) := by abel
      _ = _ := by
        rw [hbalance, hsum]
        abel

theorem Balance.outputMove (h : Balance files s) {out : OutputTask} {lists : SyncQueue MatchList}
    (hmove : OutputMove s.outputTask s.matchQueue out lists) :
    Balance files { s with outputTask := out, matchQueue := lists } := by
  have hlists := h.lists
  have hcounted := h.counted
  cases hmove with
  | enter hpc =>
    refine ⟨h.good, ?_, ?_⟩
    · simpa [OutputTask.held, hpc, SyncQueue.enterPull] using hlists
    · simpa [hpc] using hcounted
  | take ml rest hpc hitems =>
    refine ⟨h.good, ?_, ?_⟩
    · simpa [OutputTask.held, hpc, hitems, add_assoc] using hlists
    · simpa [hpc] using hcounted
  | exit hpc hitems hclosed =>
    refine ⟨h.good, ?_, ?_⟩
    · simpa [OutputTask.held, hpc] using hlists
    · simpa [hpc] using hcounted
  | print hpc =>
    refine ⟨h.good, ?_, ?_⟩
    · simpa [OutputTask.held, hpc, ← Multiset.coe_add] using hlists
    · simpa [hpc] using hcounted
  | count hpc =>
    refine ⟨h.good, ?_, ?_⟩
    · simpa [OutputTask.held, hpc] using hlists
    · simpa [hpc] using hcounted

theorem PipelineReachable.balance (h : PipelineReachable files s) : Balance files s := by
  refine Reachable.invariant ?_ ?_ h
  · rintro s rfl
    exact Balance.start
  · intro s e t hreach hs hstep
    have hphases := PipelineReachable.phases hreach
    rcases hstep.cases with hmain | ⟨i, movedFrom, sc, queue, lists, hmove, rfl⟩ |
      ⟨out, lists, hmove, rfl⟩
    · exact hs.mainMove hphases hmain
    · exact hs.scannerMove hphases hmove
    · exact hs.outputMove hmove

/-- When `main` returns, every thread has ended with empty hands. -/
theorem Balance.printed_perm (h : Balance files s) (hphases : Phases s) (hn : 0 < n) {status : Nat}
    (hmain : s.main = .returned status) :
    s.outputTask.printed.Perm (files.flatMap (·.matchLists)) := by
  have houtput := (hphases.returned status hmain).1
  have hjoined := hphases.joined (by simp [hmain, MainThreadPc.phase])
  have hfiles := (hphases.scannerExited ⟨0, hn⟩ (hjoined _)).2
  have hheld : ∑ i, (s.scanners i).held = 0 :=
    Finset.sum_eq_zero fun i _ => by simp [Scanner.held, hjoined i]
  have hlists := h.lists
  rw [hheld, hfiles, (hphases.outputExited houtput).2, hmain] at hlists
  have hprinted : (s.outputTask.printed : Multiset MatchList) = expectedLists files := by
    simpa [OutputTask.held, houtput, MainThreadPc.remaining] using hlists
  exact Multiset.coe_eq_coe.mp hprinted

theorem Balance.totalMatchedLines_eq_zero_iff (h : Balance files s)
    (hexited : s.outputTask.pc = .exited) : s.outputTask.totalMatchedLines = 0 ↔
      ¬ ∃ ml ∈ s.outputTask.printed, ml.matchList ≠ [] := by
  have hcounted := h.counted
  rw [if_neg (by simp [hexited]), Nat.add_zero] at hcounted
  rw [hcounted, List.sum_eq_zero_iff]
  simp [MatchList.getNumberOfMatchedLines]

end Balance

section Progress

theorem Scanner.isSome_run {sc : Scanner} (hgood : sc.Good) (hpc : sc.pc ≠ .exited)
    {queue : SyncQueue FoundFile} (hclosed : queue.closed = true) (lists : SyncQueue MatchList) :
    (sc.run {} queue lists).isSome := by
  cases hp : sc.pc with
  | outside => simp [Scanner.run, hp]
  | waiting =>
    have hpull : queue.canPull = true := by simp [SyncQueue.canPull, hclosed]
    cases hitems : queue.underlyingQueue with
    | nil => simp [Scanner.run, hp, hpull, SyncQueue.leavePull, hitems]
    | cons f rest => simp [Scanner.run, hp, hpull, SyncQueue.leavePull, hitems]
  | opening =>
    rw [Scanner.Good, hp] at hgood
    obtain ⟨-, f, hfile⟩ := hgood
    cases houtcome : f.outcome <;> simp [Scanner.run, hp, hfile, houtcome]
  | scanned =>
    rw [Scanner.Good, hp] at hgood
    obtain ⟨f, hfile, -⟩ := hgood
    by_cases hempty : sc.ml.matchList = []
    · simp [Scanner.run, hp, hempty]
    · simp [Scanner.run, hp, hempty, hfile]
  | pushing =>
    cases hopen : lists.closed with
    | true => simp [Scanner.run, hp, SyncQueue.pushBack_of_closed hopen]
    | false => simp [Scanner.run, hp, SyncQueue.pushBack_of_open hopen]
  | clearing => simp [Scanner.run, hp]
  | exited => exact (hpc hp).elim

theorem OutputTask.isSome_run {out : OutputTask} (hpc : out.pc ≠ .exited)
    {lists : SyncQueue MatchList} (hclosed : lists.closed = true) : (out.run lists).isSome := by
  cases hp : out.pc with
  | outside => simp [OutputTask.run, hp]
  | waiting =>
    have hpull : lists.canPull = true := by simp [SyncQueue.canPull, hclosed]
    cases hitems : lists.underlyingQueue with
    | nil => simp [OutputTask.run, hp, hpull, SyncQueue.leavePull, hitems]
    | cons ml rest => simp [OutputTask.run, hp, hpull, SyncQueue.leavePull, hitems]
  | printing => simp [OutputTask.run, hp]
  | counting => simp [OutputTask.run, hp]
  | exited => exact (hpc hp).elim

/-- Until `main` has returned, some thread can go on. -/
theorem exists_step (hphases : Phases s) (hgood : ∀ i, (s.scanners i).Good)
    (hmain : ∀ status, s.main ≠ .returned status) : ∃ e t, PipelineStep s e t := by
  suffices h : ∃ e, (s.run e).isSome by
    obtain ⟨e, he⟩ := h
    exact ⟨e, Option.isSome_iff_exists.mp he⟩
  cases hm : s.main with
  | globbing remaining =>
    cases remaining with
    | nil => exact ⟨.main, by simp [PipelineState.run, PipelineState.runMain, hm]⟩
    | cons f remaining => exact ⟨.main, by simp [PipelineState.run, PipelineState.runMain, hm]⟩
  | joiningScanners =>
    by_cases hexited : ∀ i, (s.scanners i).pc = .exited
    · exact ⟨.main, by simp [PipelineState.run, PipelineState.runMain, hm, hexited]⟩
    · obtain ⟨i, hi⟩ := not_forall.mp hexited
      have hclosed := hphases.filesClosed.mpr (by simp [hm, MainThreadPc.phase])
      refine ⟨.scanner i {}, ?_⟩
      simpa [PipelineState.run] using Scanner.isSome_run (hgood i) hi hclosed s.matchQueue
  | closingMatches => exact ⟨.main, by simp [PipelineState.run, PipelineState.runMain, hm]⟩
  | joiningOutput =>
    by_cases hexited : s.outputTask.pc = .exited
    · exact ⟨.main, by simp [PipelineState.run, PipelineState.runMain, hm, hexited]⟩
    · have hclosed := hphases.listsClosed.mpr (by simp [hm, MainThreadPc.phase])
      refine ⟨.output, ?_⟩
      simpa [PipelineState.run] using OutputTask.isSome_run hexited hclosed
  | returned status => exact (hmain status hm).elim

end Progress

section Measure

def ScannerPc.weight : ScannerPc → Nat
  | exited => 0
  | waiting => 1
  | outside => 2
  | clearing => 3
  | pushing => 8
  | scanned => 9
  | opening => 10

def OutputPc.weight : OutputPc → Nat
  | exited => 0
  | waiting => 1
  | outside => 2
  | counting => 3
  | printing => 4

def MainThreadPc.weight : MainThreadPc → Nat
  | globbing remaining => 11 * remaining.length + 4
  | joiningScanners => 3
  | closingMatches => 2
  | joiningOutput => 1
  | returned _ => 0

/-- How many steps are left at most. -/
def PipelineState.measure (s : PipelineState n) : Nat :=
  s.main.weight + 10 * s.filesToScanQueue.underlyingQueue.length + ∑ i, (s.scanners i).pc.weight +
    4 * s.matchQueue.underlyingQueue.length + s.outputTask.pc.weight

theorem MainMove.measure_lt (h : MainMove s t) : t.measure < s.measure := by
  cases h with
  | push f remaining hmain =>
    cases hclosed : s.filesToScanQueue.closed with
    | true =>
      simp only [PipelineState.measure, hmain, MainThreadPc.weight,
        SyncQueue.pushBack_of_closed hclosed, List.length_cons]
      omega
    | false =>
      simp only [PipelineState.measure, hmain, MainThreadPc.weight, PushArg.values,
        SyncQueue.pushBack_of_open hclosed, List.length_cons, List.length_append, List.length_nil]
      omega
  | closeFiles hmain => simp [PipelineState.measure, hmain, MainThreadPc.weight, SyncQueue.close]
  | joinScanners hmain hexited => simp [PipelineState.measure, hmain, MainThreadPc.weight]
  | closeMatches hmain => simp [PipelineState.measure, hmain, MainThreadPc.weight, SyncQueue.close]
  | joinOutput hmain hexited => simp [PipelineState.measure, hmain, MainThreadPc.weight]

theorem ScannerMove.weight_lt {movedFrom : MatchList} {sc sc' : Scanner}
    {queue queue' : SyncQueue FoundFile} {lists lists' : SyncQueue MatchList}
    (h : ScannerMove movedFrom sc queue lists sc' queue' lists') :
    sc'.pc.weight + 10 * queue'.underlyingQueue.length + 4 * lists'.underlyingQueue.length <
      sc.pc.weight + 10 * queue.underlyingQueue.length + 4 * lists.underlyingQueue.length := by
  cases h with
  | take f rest hpc hitems =>
    simp only [hpc, hitems, ScannerPc.weight, List.length_cons]
    omega
  | push hpc hopen =>
    simp only [hpc, ScannerPc.weight, List.length_append, List.length_cons, List.length_nil]
    omega
  | enter hpc => simp [hpc, ScannerPc.weight, SyncQueue.enterPull]
  | exit hpc hitems hclosed => simp [hpc, ScannerPc.weight]
  | skip f hpc hfile houtcome => simp [hpc, ScannerPc.weight]
  | scan f found hpc hfile houtcome => simp [hpc, ScannerPc.weight]
  | noMatch hpc hempty => simp [hpc, ScannerPc.weight]
  | name f hpc hempty hfile => simp [hpc, ScannerPc.weight]
  | refused hpc hclosed => simp [hpc, ScannerPc.weight]
  | clear hpc => simp [hpc, ScannerPc.weight]

theorem OutputMove.weight_lt {out out' : OutputTask} {lists lists' : SyncQueue MatchList}
    (h : OutputMove out lists out' lists') :
    out'.pc.weight + 4 * lists'.underlyingQueue.length <
      out.pc.weight + 4 * lists.underlyingQueue.length := by
  cases h with
  | take ml rest hpc hitems =>
    simp only [hpc, hitems, OutputPc.weight, List.length_cons]
    omega
  | enter hpc => simp [hpc, OutputPc.weight, SyncQueue.enterPull]
  | exit hpc hitems hclosed => simp [hpc, OutputPc.weight]
  | print hpc => simp [hpc, OutputPc.weight]
  | count hpc => simp [hpc, OutputPc.weight]

theorem PipelineStep.measure_lt {e : PipelineEvent n} (h : PipelineStep s e t) :
    t.measure < s.measure := by
  rcases h.cases with hmain | ⟨i, movedFrom, sc, queue, lists, hmove, rfl⟩ |
    ⟨out, lists, hmove, rfl⟩
  · exact hmain.measure_lt
  · have hlt := hmove.weight_lt
    have hsum := sum_update (fun sc : Scanner => sc.pc.weight) s.scanners i sc
    simp only [PipelineState.measure]
    omega
  · have hlt := hmove.weight_lt
    simp only [PipelineState.measure]
    omega

end Measure

theorem PipelineReachable.run (h : PipelineReachable files s) (e : PipelineEvent n)
    (hrun : (s.run e).isSome) : PipelineReachable files ((s.run e).get hrun) :=
  h.tail (e := e) (Option.some_get hrun).symm

/-- With at least one scanner thread, whatever the threads do and however the files turn out:
`main` returns after finitely many steps, the printed lists are those of the files with matches,
each once, and the exit status says whether a match was printed. -/
theorem pipeline_exitStatus (hn : 0 < n) (h : PipelineReachable files s) :
    (∀ status, s.main = .returned status →
      s.outputTask.printed.Perm (files.flatMap (·.matchLists)) ∧
        status = if ∃ ml ∈ s.outputTask.printed, ml.matchList ≠ [] then 0 else 1) ∧
    ((∀ status, s.main ≠ .returned status) → ∃ e t, PipelineStep s e t) ∧
    WellFounded fun t s : PipelineState n => ∃ e, PipelineStep s e t := by
  have hphases := PipelineReachable.phases h
  have hbalance := PipelineReachable.balance h
  refine ⟨fun status hmain => ⟨hbalance.printed_perm hphases hn hmain, ?_⟩,
    exists_step hphases hbalance.good, ?_⟩
  · obtain ⟨hexited, rfl⟩ := hphases.returned status hmain
    have hzero := hbalance.totalMatchedLines_eq_zero_iff hexited
    by_cases hfound : ∃ ml ∈ s.outputTask.printed, ml.matchList ≠ []
    · rw [if_pos hfound, if_neg fun h => hzero.1 h hfound]
    · rw [if_neg hfound, if_pos (hzero.2 hfound)]
  · refine Subrelation.wf ?_ (InvImage.wf PipelineState.measure Nat.lt_wfRel.wf)
    rintro t s ⟨e, hstep⟩
    exact hstep.measure_lt

/-- A file with one match, and one that cannot be opened. -/
def matchAndFailure : List FoundFile :=
  [⟨[99], .scanned [⟨1, [], [120], []⟩]⟩, ⟨[100], .fileException⟩]

theorem pipeline_exitStatus_matchAndFailure :
    ∃ s : PipelineState 1, s.main = .returned 0 ∧
      s.outputTask.printed.Perm (matchAndFailure.flatMap (·.matchLists)) := by
  have hstart : PipelineReachable (n := 1) matchAndFailure _ := .start rfl
  have hpushed := ((hstart.run .main rfl).run .main rfl).run .main rfl
  have htaken := (hpushed.run (.scanner 0 {}) rfl).run (.scanner 0 {}) rfl
  have hscanned := (htaken.run (.scanner 0 {}) rfl).run (.scanner 0 {}) rfl
  have hcleared := (hscanned.run (.scanner 0 {}) rfl).run (.scanner 0 {}) rfl
  have hskipped := ((hcleared.run (.scanner 0 {}) rfl).run (.scanner 0 {}) rfl).run (.scanner 0 {}) rfl
  have hexited := (hskipped.run (.scanner 0 {}) rfl).run (.scanner 0 {}) rfl
  have hclosed := (hexited.run .main rfl).run .main rfl
  have hprinted := ((hclosed.run .output rfl).run .output rfl).run .output rfl
  have hdone := ((hprinted.run .output rfl).run .output rfl).run .output rfl
  have hreturned := hdone.run .main rfl
  exact ⟨_, rfl, ((pipeline_exitStatus Nat.one_pos hreturned).1 0 rfl).1⟩

end Ucg
