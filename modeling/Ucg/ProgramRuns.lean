import Ucg.ExitStatus
import Ucg.PoolTermination
import Ucg.Program
import Ucg.Traversal

/-! The runs of `main`: its traversal is a run of `Scandir`, its queues and the threads behind
them make a run of the pipeline over the files that the traversal puts out, and what is on
`cout` is the text of the lists printed. -/

namespace Ucg

open Transition Function

variable {D : Type*} {dirjobs jobs : Nat} {setup : ProgramSetup D} {s t : ProgramState dirjobs jobs D}

section PutOut

variable {tree : DirTree} {fs : FileSystem D}

theorem readdirStep_outQueue {b next : ReaddirState D} {w w' : TraversalState D}
    (h : tree.readdirStep fs b w (.work next w')) : ∃ files, w'.outQueue = w.outQueue ++ files := by
  cases b with
  | reading dse d entries localFileQueue =>
    cases entries with
    | nil =>
      cases localFileQueue with
      | nil => cases h
      | cons f files =>
        cases h
        exact ⟨_, rfl⟩
    | cons e entries =>
      obtain ⟨statbuf, h⟩ := h
      have hsame : w'.outQueue = w.outQueue := by
        cases haction : tree.processDirent fs dse d e statbuf with
        | ignore =>
          rw [haction] at h
          rw [(WorkAct.work.inj h).2]
        | file f =>
          rw [haction] at h
          rw [(WorkAct.work.inj h).2]
        | dir f =>
          rw [haction] at h
          cases hfollow : tree.followSymlinks with
          | false => simp [hfollow] at h
          | true =>
            simp only [hfollow, if_true, hasDirBeenVisited] at h
            split at h <;> rw [(WorkAct.work.inj h).2]
      exact ⟨[], by rw [hsame, List.append_nil]⟩
  | pushing => cases h
  | closing => cases h

/-- The output queue of a traversal only grows. -/
theorem poolStep_outQueue {u u' : PoolState dirjobs (FileID D) (ReaddirState D) (TraversalState D)}
    {e : Event (FileID D)} (h : PoolStep (tree.readdirLoop fs) False u e u') :
    ∃ files, u'.world.outQueue = u.world.outQueue ++ files := by
  have hsame (hworld : u'.world = u.world) : ∃ files, u'.world.outQueue = u.world.outQueue ++ files :=
    ⟨[], by rw [hworld, List.append_nil]⟩
  cases h with
  | pullFront i _ =>
    refine hsame ?_
    rw [resumePull_world]
    rfl
  | reacquire i _ => exact hsame (resumePull_world _ u i)
  | push i _ _ =>
    refine hsame ?_
    rcases pushBack_cases u i _ _ with ⟨_, he⟩ | ⟨_, he⟩
    · rw [he, PoolState.setWorker]
    · rw [he]
  | work i _ ha => exact readdirStep_outQueue ha
  | masterWait _ =>
    refine hsame ?_
    rw [resumeWait_world]
    rfl
  | masterReacquire _ => exact hsame (resumeWait_world u)
  | externalPush hext _ => exact hext.elim
  | _ => exact hsame rfl

end PutOut

section Pipeline

/-- `main` of the pipeline, which pushes the files that are yet to be found. -/
def ProgramPc.view (rest : List FoundFile) : ProgramPc → MainThreadPc
  | .startPaths _ | .traversing => .globbing rest
  | .joiningScanners => .joiningScanners
  | .closingMatches => .closingMatches
  | .joiningOutput => .joiningOutput
  | .returned status => .returned status

def ProgramPc.Globbing : ProgramPc → Prop
  | .startPaths _ | .traversing => True
  | _ => False

def ProgramState.pipeline (s : ProgramState dirjobs jobs D) (rest : List FoundFile) :
    PipelineState jobs where
  filesToScanQueue := s.filesToScanQueue
  matchQueue := s.matchQueue
  scanners := s.scanners
  outputTask := s.outputTask
  main := s.main.view rest

def ProgramState.putOut (setup : ProgramSetup D) (s : ProgramState dirjobs jobs D) : List FoundFile :=
  s.traversal.world.outQueue.map setup.found

/-- Whatever the traversal will find: with the files put out so far in front of it, the rest of
the program stands where the pipeline can. -/
def PipelineSimulated (setup : ProgramSetup D) (s : ProgramState dirjobs jobs D) : Prop :=
  ∀ rest, (¬ s.main.Globbing → rest = []) → PipelineReachable (s.putOut setup ++ rest) (s.pipeline rest)

theorem pushBack_container_cons {α : Type*} (q : SyncQueue α) (x : α) (xs : List α) :
    ((q.pushBack (.value x)).1.pushBack (.container xs)).1 = (q.pushBack (.container (x :: xs))).1 := by
  cases hclosed : q.closed with
  | true => simp [SyncQueue.pushBack, hclosed]
  | false => simp [SyncQueue.pushBack, hclosed, PushArg.values]

theorem pushBack_container_nil {α : Type*} (q : SyncQueue α) : (q.pushBack (.container [])).1 = q := by
  cases hclosed : q.closed with
  | true => simp [SyncQueue.pushBack, hclosed]
  | false =>
    rw [SyncQueue.pushBack_of_open hclosed]
    simp only [PushArg.values, List.append_nil]

theorem PipelineReachable.push {files found rest : List FoundFile} {p : PipelineState jobs}
    (h : PipelineReachable files p) (hmain : p.main = .globbing (found ++ rest)) :
    PipelineReachable files { p with
      filesToScanQueue := (p.filesToScanQueue.pushBack (.container found)).1
      main := .globbing rest } := by
  induction found generalizing p with
  | nil =>
    rw [List.nil_append] at hmain
    rw [pushBack_container_nil, ← hmain]
    exact h
  | cons f found ih =>
    have hstep : PipelineReachable files { p with
        filesToScanQueue := (p.filesToScanQueue.pushBack (.value f)).1
        main := .globbing (found ++ rest) } :=
      h.tail (e := .main) (by simp [PipelineStep, PipelineState.run, PipelineState.runMain, hmain])
    have hpush := ih hstep rfl
    rwa [pushBack_container_cons] at hpush

theorem PipelineSimulated.of_step (h : PipelineSimulated setup s)
    (hout : t.putOut setup = s.putOut setup) (hglobbing : t.main.Globbing → s.main.Globbing)
    (hstep : ∀ rest, (¬ t.main.Globbing → rest = []) →
      ∃ e, PipelineStep (s.pipeline rest) e (t.pipeline rest)) : PipelineSimulated setup t := by
  intro rest hrest
  obtain ⟨e, he⟩ := hstep rest hrest
  rw [hout]
  exact (h rest fun hs => hrest fun ht => hs (hglobbing ht)).tail he

/-- The files that are put out are the next ones of those to be found. -/
theorem PipelineSimulated.of_push (h : PipelineSimulated setup s) (found : List FoundFile)
    (hs : s.main.Globbing) (hout : t.putOut setup = s.putOut setup ++ found)
    (hpipeline : ∀ rest, t.pipeline rest = { s.pipeline rest with
      filesToScanQueue := (s.filesToScanQueue.pushBack (.container found)).1 }) :
    PipelineSimulated setup t := by
  intro rest _
  have hview (pc : ProgramPc) (hpc : pc.Globbing) (rest : List FoundFile) :
      pc.view rest = .globbing rest := by
    cases pc with
    | startPaths | traversing => rfl
    | _ => exact hpc.elim
  have hpush := (h (found ++ rest) fun hn => (hn hs).elim).push (hview s.main hs _)
  rw [hout, List.append_assoc, hpipeline rest]
  have hmain : (s.pipeline rest).main = .globbing rest := hview s.main hs rest
  rw [← hmain] at hpush
  exact hpush

@[simp] theorem output_fields (out : OutputTask) (lists : SyncQueue MatchList) :
    (s.output setup out lists).main = s.main ∧ (s.output setup out lists).traversal = s.traversal ∧
      (s.output setup out lists).filesToScanQueue = s.filesToScanQueue ∧
      (s.output setup out lists).matchQueue = lists ∧
      (s.output setup out lists).scanners = s.scanners ∧
      (s.output setup out lists).outputTask = out := by
  unfold ProgramState.output
  dsimp only
  split <;> exact ⟨rfl, rfl, rfl, rfl, rfl, rfl⟩

theorem PipelineSimulated.pushStartPath (h : PipelineSimulated setup s) {p : Bytes}
    {remaining : List Bytes} (hmain : s.main = .startPaths (p :: remaining)) :
    PipelineSimulated setup (s.pushStartPath setup p remaining) := by
  have hs : s.main.Globbing := by rw [hmain]; trivial
  unfold ProgramState.pushStartPath
  dsimp only
  split
  · exact h.of_push [setup.found (.ofPath setup.fileSystem (cleanUpPath p))] hs
      (by simp [ProgramState.putOut])
      fun rest => by simp only [ProgramState.pipeline, hmain]; rfl
  · exact h.of_push [] hs (by simp [ProgramState.putOut])
      fun rest => by simp only [ProgramState.pipeline, hmain, pushBack_container_nil]; rfl
  · exact h.of_push [] hs (by simp [ProgramState.putOut])
      fun rest => by simp only [ProgramState.pipeline, hmain, pushBack_container_nil]; rfl

theorem PipelineSimulated.step {e : ProgramEvent} (h : PipelineSimulated setup s)
    (hstep : ProgramStep setup s e t) : PipelineSimulated setup t := by
  cases hstep with
  | startPath p remaining hmain => exact h.pushStartPath hmain
  | startThreads hmain =>
    have hs : s.main.Globbing := by rw [hmain]; trivial
    exact h.of_push [] hs (by simp [ProgramState.putOut])
      fun rest => by simp only [ProgramState.pipeline, hmain, pushBack_container_nil]; rfl
  | @traverse _ u hmain hpool =>
    have hs : s.main.Globbing := by rw [hmain]; trivial
    obtain ⟨files, hfiles⟩ := poolStep_outQueue hpool
    refine h.of_push (files.map setup.found) hs ?_ fun rest => ?_
    · simp [ProgramState.putOut, ProgramState.traverse, hfiles]
    · simp [ProgramState.pipeline, ProgramState.traverse, hfiles]
  | closeFiles hmain _ =>
    refine h.of_step rfl (fun ht => ht.elim) fun rest hrest => ⟨.main, ?_⟩
    rw [hrest id]
    simp [PipelineStep, PipelineState.run, PipelineState.runMain, ProgramState.pipeline, hmain,
      ProgramPc.view]
  | joinScanners hmain hexited =>
    refine h.of_step rfl (fun ht => ht.elim) fun rest hrest => ⟨.main, ?_⟩
    simp [PipelineStep, PipelineState.run, PipelineState.runMain, ProgramState.pipeline, hmain,
      ProgramPc.view, hexited]
  | closeMatches hmain =>
    refine h.of_step rfl (fun ht => ht.elim) fun rest hrest => ⟨.main, ?_⟩
    simp [PipelineStep, PipelineState.run, PipelineState.runMain, ProgramState.pipeline, hmain,
      ProgramPc.view]
  | joinOutput hmain hexited =>
    refine h.of_step rfl (fun ht => ht.elim) fun rest hrest => ⟨.main, ?_⟩
    simp [PipelineStep, PipelineState.run, PipelineState.runMain, ProgramState.pipeline, hmain,
      ProgramPc.view, hexited]
  | scanner i movedFrom hrun =>
    refine h.of_step rfl id fun rest _ => ⟨.scanner i movedFrom, ?_⟩
    simp [PipelineStep, PipelineState.run, ProgramState.pipeline, hrun]
  | @output out lists hrun =>
    refine h.of_step (by simp [ProgramState.putOut]) (by simp) fun rest _ => ⟨.output, ?_⟩
    simp [PipelineStep, PipelineState.run, ProgramState.pipeline, hrun]

theorem ProgramReachable.pipeline (h : ProgramReachable setup s) : PipelineSimulated setup s := by
  refine Reachable.invariant (I := PipelineSimulated setup) ?_ (fun _ _ _ _ hs => hs.step) h
  rintro s rfl rest _
  exact .start rfl

end Pipeline

section Scandir

theorem pushStartPath_main (setup : ProgramSetup D) (s : ProgramState dirjobs jobs D) (p : Bytes)
    (remaining : List Bytes) : (s.pushStartPath setup p remaining).main = .startPaths remaining := by
  unfold ProgramState.pushStartPath
  dsimp only
  split <;> rfl

/-- Before the threads start, the queues hold what the start paths read so far are; then the
traversal is a run of `Scandir`, which is over when `main` goes on. -/
structure TraversalSimulated (setup : ProgramSetup D) (s : ProgramState dirjobs jobs D) : Prop where
  starting (remaining : List Bytes) : s.main = .startPaths remaining → ∃ dirs files,
    s.traversal = ⟨{ underlyingQueue := dirs }, fun _ => .outside, .start, fun _ => 0, ⟨files, []⟩⟩ ∧
      scandirPaths setup.fileSystem setup.startPaths =
        (dirs ++ (scandirPaths setup.fileSystem remaining).1,
          files ++ (scandirPaths setup.fileSystem remaining).2)
  started : (∀ remaining, s.main ≠ .startPaths remaining) →
    Reachable (ScandirInit setup.fileSystem setup.startPaths dirjobs)
      (PoolStep (setup.dirTree.readdirLoop setup.fileSystem) False) s.traversal
  joined : ¬ s.main.Globbing → s.traversal.master = .joined

theorem TraversalSimulated.later (h : TraversalSimulated setup s) (hs : ¬ s.main.Globbing)
    (ht : ¬ t.main.Globbing) (htraversal : t.traversal = s.traversal) : TraversalSimulated setup t := by
  have hnot (pc : ProgramPc) (hpc : ¬ pc.Globbing) (remaining : List Bytes) : pc ≠ .startPaths remaining := by
    rintro rfl
    exact hpc trivial
  refine ⟨fun remaining hmain => (hnot _ ht _ hmain).elim, fun _ => ?_, fun _ => ?_⟩
  · rw [htraversal]
    exact h.started (hnot _ hs)
  · rw [htraversal]
    exact h.joined hs

theorem TraversalSimulated.frame (h : TraversalSimulated setup s) (hmain : t.main = s.main)
    (htraversal : t.traversal = s.traversal) : TraversalSimulated setup t :=
  ⟨by rw [hmain, htraversal]; exact h.starting, by rw [hmain, htraversal]; exact h.started,
    by rw [hmain, htraversal]; exact h.joined⟩

theorem TraversalSimulated.pushStartPath (h : TraversalSimulated setup s) {p : Bytes}
    {remaining : List Bytes} (hmain : s.main = .startPaths (p :: remaining)) :
    TraversalSimulated setup (s.pushStartPath setup p remaining) := by
  obtain ⟨dirs, files, htraversal, hpaths⟩ := h.starting _ hmain
  have hpc := pushStartPath_main setup s p remaining
  refine ⟨fun rest hrest => ?_, fun hne => (hne remaining hpc).elim, fun hn => ?_⟩
  · obtain rfl : remaining = rest := ProgramPc.startPaths.inj (hpc.symm.trans hrest)
    unfold ProgramState.pushStartPath
    rw [hpaths, scandirPaths]
    dsimp only
    cases htype : (FileID.ofPath setup.fileSystem (cleanUpPath p)).fileType with
    | reg => exact ⟨dirs, files ++ [_], by rw [htraversal], by simp⟩
    | dir =>
      refine ⟨dirs ++ [.ofPath setup.fileSystem (cleanUpPath p)], files, ?_, by simp⟩
      rw [htraversal]
      rfl
    | _ => exact ⟨dirs, files, htraversal, rfl⟩
  · rw [hpc] at hn
    exact (hn trivial).elim

theorem TraversalSimulated.scandirInit (h : TraversalSimulated setup s) (hmain : s.main = .startPaths []) :
    ScandirInit setup.fileSystem setup.startPaths dirjobs s.traversal := by
  obtain ⟨dirs, files, htraversal, hpaths⟩ := h.starting [] hmain
  simp only [scandirPaths, List.append_nil] at hpaths
  simpa only [ScandirInit, PoolInit, hpaths] using htraversal

theorem TraversalSimulated.step {e : ProgramEvent} (h : TraversalSimulated setup s)
    (hstep : ProgramStep setup s e t) : TraversalSimulated setup t := by
  cases hstep with
  | startPath p remaining hmain => exact h.pushStartPath hmain
  | startThreads hmain =>
    exact ⟨fun _ hrest => ProgramPc.noConfusion hrest, fun _ => .start (h.scandirInit hmain),
      fun hn => (hn trivial).elim⟩
  | @traverse e u hmain hpool =>
    have hne (remaining : List Bytes) : s.main ≠ .startPaths remaining := by simp [hmain]
    refine ⟨fun remaining hrest => (hne remaining hrest).elim, fun _ => (h.started hne).tail hpool,
      fun hn => ?_⟩
    rw [ProgramState.traverse, hmain] at hn
    exact (hn trivial).elim
  | closeFiles hmain hjoined =>
    refine ⟨fun _ hrest => ProgramPc.noConfusion hrest, fun _ => h.started (by simp [hmain]), fun _ => hjoined⟩
  | joinScanners hmain _ => exact h.later (by rw [hmain]; exact id) id rfl
  | closeMatches hmain => exact h.later (by rw [hmain]; exact id) id rfl
  | joinOutput hmain _ => exact h.later (by rw [hmain]; exact id) id rfl
  | scanner i movedFrom hrun => exact h.frame rfl rfl
  | output hrun => exact h.frame (by simp) (by simp)

theorem ProgramReachable.traversal (h : ProgramReachable setup s) : TraversalSimulated setup s := by
  refine Reachable.invariant (I := TraversalSimulated setup) ?_ (fun _ _ _ _ hs => hs.step) h
  rintro s rfl
  refine ⟨fun remaining hmain => ⟨[], [], rfl, ?_⟩, fun hne => (hne _ rfl).elim, fun hn => (hn trivial).elim⟩
  rw [← ProgramPc.startPaths.inj hmain]
  rfl

end Scandir

section Output

/-- What is on `cout` is the text of the printed lists. -/
structure Written (setup : ProgramSetup D) (s : ProgramState dirjobs jobs D) : Prop where
  cout : s.cout = writeAll setup.outputContext false s.outputTask.printed
  first : s.firstMatchlistPrinted = !s.outputTask.printed.isEmpty

theorem writeAll_append (ctx : OutputContext) (first : Bool) (lists : List MatchList) (ml : MatchList) :
    writeAll ctx first (lists ++ [ml]) =
      writeAll ctx first lists ++ ml.write ctx (first || !lists.isEmpty) := by
  induction lists generalizing first with
  | nil => simp [writeAll]
  | cons ml' lists ih => simp [writeAll, ih]

theorem Written.frame (h : Written setup s) (hcout : t.cout = s.cout)
    (hfirst : t.firstMatchlistPrinted = s.firstMatchlistPrinted) (htask : t.outputTask = s.outputTask) :
    Written setup t :=
  ⟨by rw [hcout, htask]; exact h.cout, by rw [hfirst, htask]; exact h.first⟩

theorem Written.output (h : Written setup s) {out : OutputTask} {lists : SyncQueue MatchList}
    (hmove : OutputMove s.outputTask s.matchQueue out lists) : Written setup (s.output setup out lists) := by
  cases hmove with
  | print hpc =>
    refine ⟨?_, by simp [ProgramState.output]⟩
    simp [ProgramState.output, writeAll_append, h.cout, h.first]
  | enter hpc => exact ⟨h.cout, h.first⟩
  | take ml rest hpc hitems => exact ⟨h.cout, h.first⟩
  | exit hpc hitems hclosed => exact ⟨h.cout, h.first⟩
  | count hpc => exact ⟨h.cout, h.first⟩

theorem Written.step {e : ProgramEvent} (h : Written setup s) (hstep : ProgramStep setup s e t) :
    Written setup t := by
  cases hstep with
  | startPath p remaining hmain =>
    unfold ProgramState.pushStartPath
    dsimp only
    split <;> exact h.frame rfl rfl rfl
  | output hrun => exact h.output (OutputTask.run_cases hrun)
  | _ => exact h.frame rfl rfl rfl

theorem ProgramReachable.written (h : ProgramReachable setup s) : Written setup s := by
  refine Reachable.invariant (I := Written setup) ?_ (fun _ _ _ _ hs => hs.step) h
  rintro s rfl
  exact ⟨rfl, rfl⟩

end Output

end Ucg
