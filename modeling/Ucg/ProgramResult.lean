import Ucg.ProgramRuns
import Ucg.TraversalEnds

/-! What a run of the whole program prints and returns, and that every run comes to its end. -/

namespace Ucg

open Transition Function

variable {D : Type*} {dirjobs jobs : Nat} {setup : ProgramSetup D} {s t : ProgramState dirjobs jobs D}

section Printed

variable {node : D → FsNode} {root : Bytes → FsNode}

/-- The lists of the files below the start paths, each file once for each start path. -/
def ProgramSetup.expectedLists (setup : ProgramSetup D) (root : Bytes → FsNode) : Multiset MatchList :=
  (setup.startPaths.map fun p => setup.dirTree.foundFrom (cleanUpPath p) (root p)).sum.bind fun path =>
    ↑(FoundFile.matchLists ⟨path, setup.outcome path⟩)

theorem ne_nil_of_mem_matchLists {f : FoundFile} {ml : MatchList} (h : ml ∈ f.matchLists) :
    ml.matchList ≠ [] := by
  unfold FoundFile.matchLists at h
  split at h
  · cases h
  · rename_i found hne houtcome
    rw [List.mem_singleton.mp h]
    exact hne
  · cases h

/-- What `Scandir` has put out is what the trees below the start paths hold. -/
theorem putOut_eq (hfollow : setup.dirTree.followSymlinks = false) (htree : IsTree setup.fileSystem node)
    (hstart : ∀ p ∈ setup.startPaths, StartIs setup.fileSystem node (cleanUpPath p) (root p))
    (h : ProgramReachable setup s) (hmain : ¬ s.main.Globbing) :
    (s.traversal.world.outQueue.map FileID.path : Multiset Bytes) =
      (setup.startPaths.map fun p => setup.dirTree.foundFrom (cleanUpPath p) (root p)).sum := by
  have htraversal := ProgramReachable.traversal h
  have hreach := htraversal.started fun remaining hs => hmain (by rw [hs]; trivial)
  have hmade := (readdirLoop_conserves htree hfollow).made_eq hreach
    (by rw [htraversal.joined hmain]; trivial)
  rw [← scandirPaths_owed hstart]
  exact hmade

theorem expectedLists_putOut (files : List (FileID D)) :
    (↑((files.map setup.found).flatMap (·.matchLists)) : Multiset MatchList) =
      (files.map FileID.path : Multiset Bytes).bind fun path =>
        ↑(FoundFile.matchLists ⟨path, setup.outcome path⟩) := by
  induction files with
  | nil => rfl
  | cons f files ih =>
    rw [List.map_cons, List.flatMap_cons, ← Multiset.coe_add, ih, List.map_cons, ← Multiset.cons_coe,
      Multiset.cons_bind]
    rfl

/-- What is put out so far is part of what the trees below the start paths hold. -/
theorem putOut_le (hfollow : setup.dirTree.followSymlinks = false) (htree : IsTree setup.fileSystem node)
    (hstart : ∀ p ∈ setup.startPaths, StartIs setup.fileSystem node (cleanUpPath p) (root p))
    (h : ProgramReachable setup s) :
    (s.traversal.world.outQueue.map FileID.path : Multiset Bytes) ≤
      (setup.startPaths.map fun p => setup.dirTree.foundFrom (cleanUpPath p) (root p)).sum := by
  have htraversal := ProgramReachable.traversal h
  rw [← scandirPaths_owed hstart]
  by_cases hstarting : ∃ remaining, s.main = .startPaths remaining
  · obtain ⟨remaining, hmain⟩ := hstarting
    obtain ⟨dirs, files, hs, hpaths⟩ := htraversal.starting remaining hmain
    rw [hs, hpaths, List.map_append, ← Multiset.coe_add, add_assoc]
    exact Multiset.le_add_right _ _
  · have hbalanced := (readdirLoop_conserves htree hfollow).balanced
      (htraversal.started fun remaining hmain => hstarting ⟨remaining, hmain⟩)
    have htotal := hbalanced.total_eq
    rw [PoolState.total, add_assoc] at htotal
    exact le_of_le_of_eq (Multiset.le_add_right _ _) htotal

/-- The printed lists, when `main` has returned. -/
theorem ProgramReachable.returned (hjobs : 0 < jobs) (h : ProgramReachable setup s) {status : Nat}
    (hmain : s.main = .returned status) :
    s.outputTask.printed.Perm ((s.putOut setup).flatMap (·.matchLists)) ∧
      status = if s.outputTask.printed = [] then 1 else 0 := by
  have hpipeline := ProgramReachable.pipeline h [] fun _ => rfl
  rw [List.append_nil] at hpipeline
  have hphases := PipelineReachable.phases hpipeline
  have hbalance := PipelineReachable.balance hpipeline
  have hview : (s.pipeline []).main = .returned status := by rw [ProgramState.pipeline, hmain]; rfl
  have hperm : s.outputTask.printed.Perm _ := hbalance.printed_perm hphases hjobs hview
  refine ⟨hperm, ?_⟩
  obtain ⟨hexited, hstatus⟩ := hphases.returned status hview
  have hzero := hbalance.totalMatchedLines_eq_zero_iff hexited
  have hnonempty : (¬ ∃ ml ∈ s.outputTask.printed, ml.matchList ≠ []) ↔ s.outputTask.printed = [] := by
    refine ⟨fun hn => List.eq_nil_iff_forall_not_mem.mpr fun ml hml => hn ⟨ml, hml, ?_⟩, fun hnil => ?_⟩
    · obtain ⟨f, -, hf⟩ := List.mem_flatMap.mp (hperm.subset hml)
      exact ne_nil_of_mem_matchLists hf
    · simp [hnil]
  rw [hstatus]
  exact if_congr (hzero.trans hnonempty) rfl rfl

/-- One thread of each kind, the tree of `nestedFileSystem`, and a match in each of its files. -/
def nestedSetup : ProgramSetup Bool where
  dirTree := allFiles
  fileSystem := nestedFileSystem
  startPaths := [[100]]
  outcome := fun _ => .scanned [⟨1, [97], [120], []⟩]
  outputContext := ⟨false, true, true, true, false⟩

theorem nestedSetup_startIs : ∀ p ∈ nestedSetup.startPaths,
    StartIs nestedSetup.fileSystem nestedTree (cleanUpPath p) (nestedTree false) :=
  fun _ _ => ⟨⟨_, rfl, rfl⟩, fun _ => ⟨false, rfl, rfl⟩⟩

theorem nestedSetup_returns : ∃ s : ProgramState 1 1 Bool, ProgramReachable nestedSetup s ∧
    s.main = .returned 0 ∧ s.cout = str "d/b/c:1:2:ax\n" := by
  have hstart : @ProgramReachable Bool 1 1 nestedSetup _ := .start rfl
  have hthreads := (hstart.tail (.startPath [100] [] rfl)).tail (.startThreads rfl)
  have hreading := (hthreads.tail (.traverse rfl (.pullFront 0 rfl))).tail
    (.traverse rfl (.work 0 rfl ⟨⟨.other, 0, 0⟩, rfl⟩))
  have hpushed := hreading.tail (.traverse rfl (.push 0 rfl ⟨⟨.other, 0, 0⟩, rfl⟩))
  have hnotified := hpushed.tail
    (.traverse rfl (.notify 0 rfl (.none fun i => by rw [Subsingleton.elim i 0]; simp)))
  have hsecond := (hnotified.tail (.traverse rfl (.finish 0 rfl rfl))).tail
    (.traverse rfl (.pullFront 0 rfl))
  have hfile := (hsecond.tail (.traverse rfl (.work 0 rfl ⟨⟨.other, 0, 0⟩, rfl⟩))).tail
    (.traverse rfl (.work 0 rfl rfl))
  have hasleep := (hfile.tail (.traverse rfl (.finish 0 rfl rfl))).tail
    (.traverse rfl (.pullFront 0 rfl))
  have hclosed := (hasleep.tail (.traverse rfl (.masterWait rfl))).tail (.traverse rfl (.close rfl))
  have hexited := (hclosed.tail (.traverse rfl (.closeNotify rfl))).tail
    (.traverse rfl (.reacquire 0 rfl))
  have hjoined := hexited.tail (.traverse rfl (.join rfl fun i => by rw [Subsingleton.elim i 0]; rfl))
  have htaken := ((hjoined.tail (.closeFiles rfl rfl)).tail (.scanner 0 {} rfl)).tail
    (.scanner 0 {} rfl)
  have hnamed := (htaken.tail (.scanner 0 {} rfl)).tail (.scanner 0 {} rfl)
  have hcleared := (hnamed.tail (.scanner 0 {} rfl)).tail (.scanner 0 {} rfl)
  have hscanned := (hcleared.tail (.scanner 0 {} rfl)).tail (.scanner 0 {} rfl)
  have hmatches := (hscanned.tail
    (.joinScanners rfl fun i => by rw [Subsingleton.elim i 0]; rfl)).tail (.closeMatches rfl)
  have hprinted := ((hmatches.tail (.output rfl)).tail (.output rfl)).tail (.output rfl)
  have hcounted := ((hprinted.tail (.output rfl)).tail (.output rfl)).tail (.output rfl)
  exact ⟨_, hcounted.tail (.joinOutput rfl rfl), rfl, by decide⟩

/-- At any moment of any run the output is the text of whole lists, of files below the start paths
that have matches, and no file is there more often than the start paths lead to it. -/
theorem program_output_sofar (hfollow : setup.dirTree.followSymlinks = false)
    (htree : IsTree setup.fileSystem node)
    (hstart : ∀ p ∈ setup.startPaths, StartIs setup.fileSystem node (cleanUpPath p) (root p))
    (h : ProgramReachable setup s) :
    ∃ lists : List MatchList, ↑lists ≤ setup.expectedLists root ∧
      s.cout = writeAll setup.outputContext false lists := by
  refine ⟨s.outputTask.printed, ?_, (ProgramReachable.written h).cout⟩
  have hpipeline := ProgramReachable.pipeline h [] fun _ => rfl
  rw [List.append_nil] at hpipeline
  have hlists := (PipelineReachable.balance hpipeline).lists
  simp only [add_assoc] at hlists
  have hprinted : (s.outputTask.printed : Multiset MatchList) ≤ Ucg.expectedLists (s.putOut setup) :=
    le_of_le_of_eq (Multiset.le_add_right _ _) hlists
  obtain ⟨unfound, hfound⟩ := Multiset.le_iff_exists_add.mp (putOut_le hfollow htree hstart h)
  rw [ProgramSetup.expectedLists, hfound, Multiset.add_bind, ← expectedLists_putOut]
  exact hprinted.trans (Multiset.le_add_right _ _)

theorem program_output_sofar_nested : ∃ (s : ProgramState 1 1 Bool) (lists : List MatchList),
    s.cout = str "d/b/c:1:2:ax\n" ∧ ↑lists ≤ nestedSetup.expectedLists (fun _ => nestedTree false) ∧
      s.cout = writeAll nestedSetup.outputContext false lists := by
  obtain ⟨s, hreturned, -, hcout⟩ := nestedSetup_returns
  obtain ⟨lists, hlists, hwritten⟩ :=
    program_output_sofar rfl nestedFileSystem_isTree nestedSetup_startIs hreturned
  exact ⟨s, lists, hcout, hlists, hwritten⟩

/-- When the program returns, it has written the lists of the files below the start paths that have
matches, each file once for each start path, whole, and in some order. The exit status is 1 if there
are none, and else 0. -/
theorem program_output (hjobs : 0 < jobs) (hfollow : setup.dirTree.followSymlinks = false)
    (htree : IsTree setup.fileSystem node)
    (hstart : ∀ p ∈ setup.startPaths, StartIs setup.fileSystem node (cleanUpPath p) (root p))
    (h : ProgramReachable setup s) {status : Nat} (hmain : s.main = .returned status) :
    ∃ lists : List MatchList, ↑lists = setup.expectedLists root ∧
      s.cout = writeAll setup.outputContext false lists ∧ status = if lists = [] then 1 else 0 := by
  have hglobbing : ¬ s.main.Globbing := by rw [hmain]; exact id
  obtain ⟨hperm, hstatus⟩ := ProgramReachable.returned hjobs h hmain
  refine ⟨s.outputTask.printed, ?_, (ProgramReachable.written h).cout, hstatus⟩
  rw [Multiset.coe_eq_coe.mpr hperm, ProgramState.putOut, expectedLists_putOut,
    putOut_eq hfollow htree hstart h hglobbing]
  rfl

theorem program_output_nested : ∃ (s : ProgramState 1 1 Bool) (lists : List MatchList),
    s.main = .returned 0 ∧ s.cout = str "d/b/c:1:2:ax\n" ∧
      (lists : Multiset MatchList) = nestedSetup.expectedLists (fun _ => nestedTree false) ∧
      s.cout = writeAll nestedSetup.outputContext false lists ∧
      0 = if lists = [] then 1 else 0 := by
  obtain ⟨s, hreturned, hmain, hcout⟩ := nestedSetup_returns
  obtain ⟨lists, hlists, hwritten, hstatus⟩ :=
    program_output Nat.one_pos rfl nestedFileSystem_isTree nestedSetup_startIs hreturned hmain
  exact ⟨s, lists, hmain, hcout, hlists, hwritten, hstatus⟩

end Printed

section Progress

theorem not_spuriousWakeup_self {n : Nat} {α β ω : Type*} (u : PoolState n α β ω) : ¬ SpuriousWakeup u u :=
  not_spuriousWakeup_of_sleepers (fun _ => id) rfl

/-- A step of the pipeline behind the traversal is a step of the program. -/
theorem exists_programStep (setup : ProgramSetup D) {e : PipelineEvent jobs} {p : PipelineState jobs} (hs : ¬ s.main.Globbing)
    (h : PipelineStep (s.pipeline []) e p) :
    ∃ e' t, ProgramStep setup s e' t ∧ t.traversal = s.traversal := by
  cases e with
  | main =>
    cases hmain : s.main with
    | startPaths remaining => exact (hs (by rw [hmain]; trivial)).elim
    | traversing => exact (hs (by rw [hmain]; trivial)).elim
    | joiningScanners =>
      by_cases hexited : ∀ i, (s.scanners i).pc = .exited
      · exact ⟨_, _, .joinScanners hmain hexited, rfl⟩
      · simp [PipelineStep, PipelineState.run, PipelineState.runMain, ProgramState.pipeline, hmain,
          ProgramPc.view, hexited] at h
    | closingMatches => exact ⟨_, _, .closeMatches hmain, rfl⟩
    | joiningOutput =>
      by_cases hexited : s.outputTask.pc = .exited
      · exact ⟨_, _, .joinOutput hmain hexited, rfl⟩
      · simp [PipelineStep, PipelineState.run, PipelineState.runMain, ProgramState.pipeline, hmain,
          ProgramPc.view, hexited] at h
    | returned status =>
      simp [PipelineStep, PipelineState.run, PipelineState.runMain, ProgramState.pipeline, hmain,
        ProgramPc.view] at h
  | scanner i movedFrom =>
    obtain ⟨⟨sc, files, lists⟩, hrun, -⟩ := Option.map_eq_some_iff.mp h
    exact ⟨_, _, .scanner i movedFrom hrun, rfl⟩
  | output =>
    obtain ⟨⟨out, lists⟩, hrun, -⟩ := Option.map_eq_some_iff.mp h
    exact ⟨_, _, .output hrun, by simp⟩

theorem pushStartPath_traversal (setup : ProgramSetup D) (s : ProgramState dirjobs jobs D) (p : Bytes)
    (remaining : List Bytes) :
    (s.pushStartPath setup p remaining).traversal.workers = s.traversal.workers ∧
      (s.pushStartPath setup p remaining).traversal.master = s.traversal.master := by
  unfold ProgramState.pushStartPath
  dsimp only
  split <;> exact ⟨rfl, rfl⟩

/-- Whatever the files and the directories are and whatever is filtered or followed: until `main` has
returned, some thread can go on without the help of a spurious wakeup. -/
theorem program_progress (hdirjobs : 0 < dirjobs) (h : ProgramReachable setup s)
    (hmain : ∀ status, s.main ≠ .returned status) :
    ∃ e t, ProgramStep setup s e t ∧ ¬ SpuriousWakeup s.traversal t.traversal := by
  have htraversal := ProgramReachable.traversal h
  by_cases hglobbing : s.main.Globbing
  · cases hpc : s.main with
    | startPaths remaining =>
      cases remaining with
      | nil => exact ⟨_, _, .startThreads hpc, not_spuriousWakeup_self _⟩
      | cons p remaining =>
        obtain ⟨hworkers, hmaster⟩ := pushStartPath_traversal setup s p remaining
        refine ⟨_, _, .startPath p remaining hpc, not_spuriousWakeup_of_sleepers (fun j hj => ?_) hmaster⟩
        rw [hworkers, hj]
    | traversing =>
      by_cases hjoined : s.traversal.master = .joined
      · exact ⟨_, _, .closeFiles hpc hjoined, not_spuriousWakeup_self _⟩
      · obtain ⟨e, u, hstep, hregular⟩ := canStep hdirjobs readdirLoop_acts
          (htraversal.started (by simp [hpc])) hjoined
        exact ⟨_, _, .traverse hpc hstep, hregular⟩
    | _ =>
      rw [hpc] at hglobbing
      exact hglobbing.elim
  · have hpipeline := ProgramReachable.pipeline h [] fun _ => rfl
    have hview : ∀ status, (s.pipeline []).main ≠ .returned status := by
      intro status hview
      cases hpc : s.main with
      | returned status' => exact hmain status' hpc
      | _ => simp [ProgramState.pipeline, hpc, ProgramPc.view] at hview
    obtain ⟨e, p, hstep⟩ := exists_step (PipelineReachable.phases hpipeline)
      (PipelineReachable.balance hpipeline).good hview
    obtain ⟨e', t, hstep', hsame⟩ := exists_programStep setup hglobbing hstep
    exact ⟨e', t, hstep', by rw [hsame]; exact not_spuriousWakeup_self _⟩

/-- The master and the second traversal thread sleep, and the first thread has the directory. -/
theorem program_progress_sleepers : ∃ s : ProgramState 2 1 Bool, ProgramReachable nestedSetup s ∧
    s.traversal.master = .asleep ∧ s.traversal.workers 1 = .asleep ∧
      ∃ e t, ProgramStep nestedSetup s e t ∧ ¬ SpuriousWakeup s.traversal t.traversal := by
  have hstart : @ProgramReachable Bool 2 1 nestedSetup _ := .start rfl
  have hthreads := (hstart.tail (.startPath [100] [] rfl)).tail (.startThreads rfl)
  have hwaiting := hthreads.tail (.traverse rfl (.masterWait rfl))
  have hreading := hwaiting.tail (.traverse rfl (.pullFront 0 rfl))
  have hasleep := hreading.tail (.traverse rfl (.pullFront 1 rfl))
  exact ⟨_, hasleep, rfl, rfl, program_progress Nat.two_pos hasleep nofun⟩

end Progress

section Termination

/-- How far `main` is from the end of the traversal. -/
def ProgramPc.stage : ProgramPc → Nat
  | .startPaths remaining => remaining.length + 2
  | .traversing => 1
  | _ => 0

variable {GoodItem : FileID D → Prop} {Good : ReaddirState D → Prop} {rank : TraversalState D → Nat}
  {cost : FileID D → Nat} {left : ReaddirState D → Nat}

/-- The stage of `main`, then what is left of the traversal, then what is left of the pipeline. -/
def ProgramState.measure (rank : TraversalState D → Nat) (cost : FileID D → Nat)
    (left : ReaddirState D → Nat) (s : ProgramState dirjobs jobs D) : Nat ×ₗ (Nat ×ₗ Nat) ×ₗ Nat :=
  toLex (s.main.stage, toLex (s.traversal.measure rank cost left, (s.pipeline []).measure))

theorem measure_lt_of_stage (h : t.main.stage < s.main.stage) :
    t.measure rank cost left < s.measure rank cost left :=
  Prod.Lex.toLex_lt_toLex.mpr (Or.inl h)

theorem measure_lt_of_traversal (hmain : t.main = s.main)
    (h : t.traversal.measure rank cost left < s.traversal.measure rank cost left) :
    t.measure rank cost left < s.measure rank cost left :=
  Prod.Lex.toLex_lt_toLex.mpr (Or.inr ⟨by rw [hmain], Prod.Lex.toLex_lt_toLex.mpr (Or.inl h)⟩)

theorem measure_lt_of_pipeline (hstage : t.main.stage = s.main.stage)
    (htraversal : t.traversal = s.traversal) {e : PipelineEvent jobs}
    (h : PipelineStep (s.pipeline []) e (t.pipeline [])) :
    t.measure rank cost left < s.measure rank cost left :=
  Prod.Lex.toLex_lt_toLex.mpr (Or.inr ⟨hstage,
    Prod.Lex.toLex_lt_toLex.mpr (Or.inr ⟨by rw [htraversal], h.measure_lt⟩)⟩)

theorem ProgramStep.measure_lt
    (hprog : Exhausts (setup.dirTree.readdirLoop setup.fileSystem) GoodItem Good rank cost left)
    (hqueue : ∀ f ∈ (scandirPaths setup.fileSystem setup.startPaths).1, GoodItem f)
    (h : ProgramReachable setup s) {e : ProgramEvent} (hstep : ProgramStep setup s e t)
    (hregular : ¬ SpuriousWakeup s.traversal t.traversal) :
    t.measure rank cost left < s.measure rank cost left := by
  cases hstep with
  | startPath p remaining hmain =>
    refine measure_lt_of_stage ?_
    simp [pushStartPath_main, hmain, ProgramPc.stage]
  | startThreads hmain => exact measure_lt_of_stage (by simp [hmain, ProgramPc.stage])
  | traverse hmain hpool =>
    refine measure_lt_of_traversal rfl ?_
    have hreach := (ProgramReachable.traversal h).started (by simp [hmain])
    exact PoolState.measure_lt hprog hqueue hreach hpool hregular
  | closeFiles hmain _ => exact measure_lt_of_stage (by simp [hmain, ProgramPc.stage])
  | joinScanners hmain hexited =>
    refine measure_lt_of_pipeline (e := .main) (by simp [hmain, ProgramPc.stage]) rfl ?_
    simp [PipelineStep, PipelineState.run, PipelineState.runMain, ProgramState.pipeline, hmain,
      ProgramPc.view, hexited]
  | closeMatches hmain =>
    refine measure_lt_of_pipeline (e := .main) (by simp [hmain, ProgramPc.stage]) rfl ?_
    simp [PipelineStep, PipelineState.run, PipelineState.runMain, ProgramState.pipeline, hmain,
      ProgramPc.view]
  | joinOutput hmain hexited =>
    refine measure_lt_of_pipeline (e := .main) (by simp [hmain, ProgramPc.stage]) rfl ?_
    simp [PipelineStep, PipelineState.run, PipelineState.runMain, ProgramState.pipeline, hmain,
      ProgramPc.view, hexited]
  | scanner i movedFrom hrun =>
    refine measure_lt_of_pipeline (e := .scanner i movedFrom) rfl rfl ?_
    simp [PipelineStep, PipelineState.run, ProgramState.pipeline, hrun]
  | output hrun =>
    refine measure_lt_of_pipeline (e := .output) (by simp) (by simp) ?_
    simp [PipelineStep, PipelineState.run, ProgramState.pipeline, hrun]

/-- The steps of the program other than spurious wakeups. -/
def RegularStep (setup : ProgramSetup D) (t s : ProgramState dirjobs jobs D) : Prop :=
  ProgramReachable setup s ∧ (∃ e, ProgramStep setup s e t) ∧
    ¬ SpuriousWakeup s.traversal t.traversal

theorem wellFounded_regularStep
    (hprog : Exhausts (setup.dirTree.readdirLoop setup.fileSystem) GoodItem Good rank cost left)
    (hqueue : ∀ f ∈ (scandirPaths setup.fileSystem setup.startPaths).1, GoodItem f) :
    WellFounded (@RegularStep D dirjobs jobs setup) := by
  refine Subrelation.wf ?_ (InvImage.wf (ProgramState.measure rank cost left) wellFounded_lt)
  rintro t s ⟨hreach, ⟨e, hstep⟩, hregular⟩
  exact hstep.measure_lt hprog hqueue hreach hregular

/-- Over trees every run without spurious wakeups is finite, with any number of threads and in any
order of their steps. -/
theorem program_terminates_tree (hfollow : setup.dirTree.followSymlinks = false)
    {node : D → FsNode} (htree : IsTree setup.fileSystem node) :
    WellFounded (@RegularStep D dirjobs jobs setup) :=
  wellFounded_regularStep (readdirLoop_exhausts_tree htree hfollow) fun _ _ => trivial

theorem program_terminates_tree_nested : WellFounded (@RegularStep Bool 1 1 nestedSetup) :=
  program_terminates_tree rfl nestedFileSystem_isTree

/-- The directories that a step of the traversal pushes. -/
def ProgramState.pushed (s t : ProgramState dirjobs jobs D) : List (FileID D) :=
  match s.main with
  | .traversing => s.traversal.view.pushed t.traversal.view
  | _ => []

/-- The runs of the program, with the directories that the traversal threads push. -/
def QueuedRun (setup : ProgramSetup D) : ProgramState dirjobs jobs D → List (FileID D) → Prop :=
  Recorded (· = setup.start) (ProgramStep setup) ProgramState.pushed

/-- Before the threads start nothing is pushed, and then what the runs of `Scandir` push. -/
structure PushedByTraversal (setup : ProgramSetup D) (s : ProgramState dirjobs jobs D)
    (l : List (FileID D)) : Prop where
  starting (remaining : List Bytes) : s.main = .startPaths remaining → l = []
  started : (∀ remaining, s.main ≠ .startPaths remaining) →
    PushedRun setup.dirTree setup.fileSystem setup.startPaths s.traversal l

section Pushed

variable {l : List (FileID D)}

theorem pushed_of_traversal_eq (h : t.traversal = s.traversal) : s.pushed t = [] := by
  unfold ProgramState.pushed
  split
  · rw [h]
    exact pushed_of_items_eq rfl
  · rfl

theorem PushedByTraversal.frame (h : PushedByTraversal setup s l) (hmain : t.main = s.main)
    (htraversal : t.traversal = s.traversal) : PushedByTraversal setup t (l ++ s.pushed t) := by
  rw [pushed_of_traversal_eq htraversal, List.append_nil]
  exact ⟨by rw [hmain]; exact h.starting, by rw [hmain, htraversal]; exact h.started⟩

theorem PushedByTraversal.later (h : PushedByTraversal setup s l)
    (hs : ∀ remaining, s.main ≠ .startPaths remaining)
    (ht : ∀ remaining, t.main ≠ .startPaths remaining) (htraversal : t.traversal = s.traversal) :
    PushedByTraversal setup t (l ++ s.pushed t) := by
  rw [pushed_of_traversal_eq htraversal, List.append_nil]
  exact ⟨fun remaining hmain => (ht remaining hmain).elim, fun _ => htraversal ▸ h.started hs⟩

theorem PushedByTraversal.step {e : ProgramEvent} (hreach : ProgramReachable setup s)
    (h : PushedByTraversal setup s l) (hstep : ProgramStep setup s e t) :
    PushedByTraversal setup t (l ++ s.pushed t) := by
  cases hstep with
  | startPath p remaining hmain =>
    refine ⟨fun _ _ => ?_, fun hne => (hne remaining (pushStartPath_main ..)).elim⟩
    rw [h.starting _ hmain, ProgramState.pushed, hmain, List.nil_append]
  | startThreads hmain =>
    refine ⟨fun _ hrest => ProgramPc.noConfusion hrest, fun _ => ?_⟩
    rw [h.starting _ hmain, ProgramState.pushed, hmain, List.nil_append]
    exact .start ((ProgramReachable.traversal hreach).scandirInit hmain)
  | @traverse e u hmain hpool =>
    have hne (remaining : List Bytes) : s.main ≠ .startPaths remaining := by simp [hmain]
    refine ⟨fun remaining hrest => (hne remaining hrest).elim, fun _ => ?_⟩
    rw [ProgramState.pushed, hmain]
    exact (h.started hne).tail hpool
  | closeFiles hmain _ => exact h.later (by simp [hmain]) (by simp) rfl
  | joinScanners hmain _ => exact h.later (by simp [hmain]) (by simp) rfl
  | closeMatches hmain => exact h.later (by simp [hmain]) (by simp) rfl
  | joinOutput hmain _ => exact h.later (by simp [hmain]) (by simp) rfl
  | scanner i movedFrom hrun => exact h.frame rfl rfl
  | output hrun => exact h.frame (by simp) (by simp)

theorem QueuedRun.pushedByTraversal (h : QueuedRun setup s l) : PushedByTraversal setup s l := by
  refine Recorded.invariant (I := PushedByTraversal setup) ?_ ?_ h
  · rintro s rfl
    exact ⟨fun _ _ => rfl, fun hne => (hne _ rfl).elim⟩
  · exact fun s l e t hreach hs hstep => hs.step hreach hstep

theorem QueuedRun.nodup (hfollow : setup.dirTree.followSymlinks = true) (h : QueuedRun setup s l) :
    (l.map FileID.uniqueFileIdentifier).Nodup := by
  have hpushed := h.pushedByTraversal
  by_cases hstarting : ∃ remaining, s.main = .startPaths remaining
  · obtain ⟨remaining, hmain⟩ := hstarting
    rw [hpushed.starting remaining hmain]
    exact List.nodup_nil
  · have hrun := hpushed.started fun remaining hmain => hstarting ⟨remaining, hmain⟩
    exact (hrun.account hfollow).nodup_pushed

end Pushed

/-- With symlinks followed every run without spurious wakeups is finite too, also where links lead
back to a directory they are below: there are finitely many directories, and each identifier is
queued at most once by the traversal threads. -/
theorem program_terminates_graph [Finite D] (hfollow : setup.dirTree.followSymlinks = true)
    (hnames : NamesInodes setup.fileSystem) :
    WellFounded (@RegularStep D dirjobs jobs setup) ∧
      ∀ (s : ProgramState dirjobs jobs D) l, QueuedRun setup s l →
        (l.map FileID.uniqueFileIdentifier).Nodup := by
  have hkeys : {k | IsKey setup.dirTree setup.fileSystem setup.startPaths k}.Finite :=
    finite_isKey hfollow hnames
  refine ⟨?_, fun s l h => h.nodup hfollow⟩
  exact wellFounded_regularStep
    (readdirLoop_exhausts_graph hfollow fun k hk => hkeys.mem_toFinset.mpr hk) fun f hf => .start hf

/-- A directory with a symlink to itself, which is followed. -/
def loopSetup : ProgramSetup Bool :=
  { nestedSetup with dirTree := followAll, fileSystem := linkTo false .lnk 5 }

/-- The symlink is queued under its own identifier, and the directory behind it is read again. -/
theorem program_terminates_graph_loop : WellFounded (@RegularStep Bool 2 2 loopSetup) ∧
    ∃ (s : ProgramState 2 2 Bool) (l : List (FileID Bool)), QueuedRun loopSetup s l ∧
      l.map FileID.uniqueFileIdentifier = [⟨1, 5⟩] ∧ (l.map FileID.uniqueFileIdentifier).Nodup := by
  have hnames : NamesInodes loopSetup.fileSystem := by
    intro d e he hino
    cases d with
    | true => simp [loopSetup, linkTo] at he
    | false => rcases List.mem_pair.mp he with rfl | rfl <;> cases hino
  obtain ⟨hterminates, hqueued⟩ := @program_terminates_graph Bool 2 2 loopSetup _ rfl hnames
  have hstart : @QueuedRun Bool 2 2 loopSetup _ [] := .start rfl
  have hthreads := Recorded.tail (Recorded.tail hstart (.startPath [100] [] rfl)) (.startThreads rfl)
  have hread := Recorded.tail hthreads (.traverse rfl (.pullFront 0 rfl))
  have hfile := Recorded.tail hread (.traverse rfl (.work 0 rfl ⟨⟨.other, 0, 0⟩, rfl⟩))
  have hlink := Recorded.tail hfile (.traverse rfl (.work 0 rfl ⟨⟨.other, 0, 0⟩, rfl⟩))
  have hpushed := Recorded.tail hlink (.traverse rfl (.push 0 rfl rfl))
  exact ⟨hterminates, _, _, hpushed, rfl, hqueued _ _ hpushed⟩

end Termination

end Ucg
