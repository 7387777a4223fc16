import Ucg.WorkerPool

/-! Detection of the end of the work: the counter of waiting workers is exact in every
reachable state, and a completed wait finds nothing left to do. -/

namespace Ucg

open Transition Function

def MasterPc.HasClosed : MasterPc → Prop
  | .closing | .joining | .joined => True
  | _ => False

def MasterPc.HasWaited : MasterPc → Prop
  | .returned _ | .closing | .joining | .joined => True
  | _ => False

/-- A worker with nothing in its hands that is no longer on its way to `pull_front`. -/
def WorkerPc.Idle {β : Type*} : WorkerPc β → Prop
  | .asleep | .woken | .exited => True
  | _ => False

variable {n : Nat} {α β ω : Type*}

/-- The counter of waiting threads, its notification level and the closed flag follow from
where the threads stand. -/
structure Counted (s : PoolState n α β ω) : Prop where
  count : s.queue.numWaitingThreads = ∑ i, (s.workers i).waiting
  level : s.queue.numWaitingThreadsNotificationLevel =
    if s.master = .start ∨ n = 0 then 500 else (n : Int)
  closed_iff : s.queue.closed = true ↔ s.master.HasClosed

/-- Behind the wait of the master nothing is queued and no worker has an item. -/
def Quiet (s : PoolState n α β ω) : Prop :=
  s.master.HasWaited → s.queue.underlyingQueue = [] ∧ ∀ i, (s.workers i).Idle

section Workers

variable {w w' : Fin n → WorkerPc β} {pc : WorkerPc β}

theorem WorkerPc.waiting_le_one (pc : WorkerPc β) : pc.waiting ≤ 1 := by
  cases pc <;> simp [waiting]

theorem WorkerPc.idle_of_waiting (h : pc.waiting = 1) : pc.Idle := by
  cases pc <;> simp_all [waiting, Idle]

theorem WorkerPc.Idle.not_holdsItem (h : pc.Idle) : ¬pc.HoldsItem := by
  cases pc <;> simp_all [HoldsItem, Idle]

theorem WakesSome.idle (h : WakesSome w w') (hw : ∀ i, (w i).Idle) (i : Fin n) : (w' i).Idle := by
  rcases h i with h | ⟨_, h⟩
  · rw [h]
    exact hw i
  · rw [h]
    trivial

theorem idle_update (hw : ∀ i, (w i).Idle) {i : Fin n} (hpc : pc.Idle) (j : Fin n) :
    (update w i pc j).Idle := by
  by_cases hj : j = i
  · subst hj
    rwa [update_self]
  · rw [update_of_ne hj]
    exact hw j

end Workers

section Master

variable {m : MasterPc}

theorem MasterPc.wake_eq_start : m.wake = .start ↔ m = .start := by
  cases m <;> simp [wake]

theorem MasterPc.hasClosed_wake : m.wake.HasClosed ↔ m.HasClosed := by
  cases m <;> simp [wake, HasClosed]

theorem MasterPc.hasWaited_wake : m.wake.HasWaited ↔ m.HasWaited := by
  cases m <;> simp [wake, HasWaited]

theorem MasterPc.HasClosed.hasWaited (h : m.HasClosed) : m.HasWaited := by
  cases m <;> simp_all [HasClosed, HasWaited]

end Master

section Invariants

variable {prog : WorkerProgram α β ω} {external : Prop} {s s' : PoolState n α β ω} {i : Fin n}

namespace Counted

theorem move (h : Counted s) {pc : WorkerPc β} (hworkers : s'.workers = update s.workers i pc)
    (hmaster : s'.master = s.master)
    (hcount : s'.queue.numWaitingThreads + (s.workers i).waiting =
      s.queue.numWaitingThreads + pc.waiting)
    (hlevel : s'.queue.numWaitingThreadsNotificationLevel =
      s.queue.numWaitingThreadsNotificationLevel)
    (hclosed : s'.queue.closed = s.queue.closed) : Counted s' := by
  refine ⟨?_, ?_, ?_⟩
  · have hsum := sum_update WorkerPc.waiting s.workers i pc
    have hcount' := h.count
    rw [hworkers]
    omega
  · rw [hlevel, hmaster]
    exact h.level
  · rw [hclosed, hmaster]
    exact h.closed_iff

theorem wakes (h : Counted s) (hworkers : WakesSome s.workers s'.workers)
    (hmaster : s'.master = s.master) (hqueue : s'.queue = s.queue) : Counted s' := by
  refine ⟨?_, ?_, ?_⟩
  · rw [hworkers.sum_waiting, hqueue]
    exact h.count
  · rw [hqueue, hmaster]
    exact h.level
  · rw [hqueue, hmaster]
    exact h.closed_iff

theorem master (h : Counted s) {m : MasterPc} (hstart : m = .start ↔ s.master = .start)
    (hclosed : m.HasClosed ↔ s.master.HasClosed) : Counted { s with master := m } :=
  ⟨h.count, by rw [h.level]; simp only [hstart], by rw [h.closed_iff]; exact hclosed.symm⟩

theorem enterPull (h : Counted s) (hi : s.workers i = .outside) : Counted (s.enterPull i) := by
  have hmove : Counted { s with queue := s.queue.enterPull.1, workers := update s.workers i .woken } :=
    h.move rfl rfl (by simp [SyncQueue.enterPull, hi, WorkerPc.waiting]) rfl rfl
  unfold PoolState.enterPull
  split
  · exact hmove.master MasterPc.wake_eq_start MasterPc.hasClosed_wake
  · exact hmove

theorem resumePull (h : Counted s) (hi : s.workers i = .woken) : Counted (s.resumePull prog i) := by
  rcases resumePull_cases prog s i with ⟨_, _, he⟩ | ⟨_, _, he⟩ | ⟨x, xs, _, he⟩ <;> rw [he]
  · exact h.move rfl rfl (by simp [PoolState.setWorker, hi, WorkerPc.waiting]) rfl rfl
  · exact h.move rfl rfl (by simp [hi, WorkerPc.waiting]) rfl rfl
  · exact h.move rfl rfl (by simp [hi, WorkerPc.waiting]) rfl rfl

theorem pushBack (h : Counted s) {b next : β} (hi : s.workers i = .processing b) (arg : PushArg α) :
    Counted (s.pushBack i arg next) := by
  rcases pushBack_cases s i arg next with ⟨_, he⟩ | ⟨_, he⟩ <;> rw [he]
  · exact h.move rfl rfl (by simp [PoolState.setWorker, hi, WorkerPc.waiting]) rfl rfl
  · exact h.move rfl rfl (by simp [hi, WorkerPc.waiting]) rfl rfl

theorem enterWait (h : Counted s) (hm : s.master = .start) : Counted s.enterWait := by
  have hclosed : s.queue.closed = false := by
    rw [← Bool.not_eq_true, h.closed_iff, hm]
    exact id
  have hlevel := h.level
  unfold PoolState.enterWait SyncQueue.setLevel
  split
  · exact ⟨h.count, by simp; omega, by simp [hclosed, MasterPc.HasClosed]⟩
  · have hn : n = 0 := by omega
    exact ⟨h.count, by simp_all, by simp [hclosed, MasterPc.HasClosed]⟩

theorem resumeWait (h : Counted s) (hm : s.master = .woken) : Counted s.resumeWait := by
  rcases resumeWait_cases s with ⟨_, he⟩ | ⟨_, he⟩ <;> rw [he] <;>
    exact h.master (by simp [hm]) (by simp [hm, MasterPc.HasClosed])

theorem init {queue : List α} {world : ω} (h : PoolInit n queue world s) : Counted s := by
  subst h
  exact ⟨by simp [WorkerPc.waiting], by simp, by simp [MasterPc.HasClosed]⟩

theorem step {e : Event α} (h : Counted s) (hs : PoolStep prog external s e s') : Counted s' := by
  cases hs with
  | pullFront i hi => exact (h.enterPull hi).resumePull (update_self ..)
  | reacquire i hi => exact h.resumePull hi
  | spurious i hi => exact h.wakes (wakesSome_update hi) rfl rfl
  | push i hi _ => exact h.pushBack hi _
  | @notify i b k w hi hw =>
    have hmove : Counted (s.setWorker i (.processing b)) :=
      h.move rfl rfl (by simp [PoolState.setWorker, hi, WorkerPc.waiting]) rfl rfl
    exact hmove.wakes hw.wakesSome rfl rfl
  | work i hi _ => exact h.move rfl rfl (by simp [PoolState.setWorker, hi, WorkerPc.waiting]) rfl rfl
  | finish i hi _ => exact h.move rfl rfl (by simp [PoolState.setWorker, hi, WorkerPc.waiting]) rfl rfl
  | masterWait hm => exact (h.enterWait hm).resumeWait rfl
  | masterReacquire hm => exact h.resumeWait hm
  | masterSpurious hm => exact h.master (by simp [hm]) (by simp [hm, MasterPc.HasClosed])
  | close hm =>
    exact ⟨h.count, by simpa [hm, SyncQueue.close] using h.level,
      by simp [SyncQueue.close, MasterPc.HasClosed]⟩
  | closeNotify hm =>
    have hwoken : Counted { s with workers := fun i => (s.workers i).wake } :=
      h.wakes (wakesSome_wake _) rfl rfl
    exact hwoken.master (by simp [hm]) (by simp [hm, MasterPc.HasClosed])
  | join hm _ => exact h.master (by simp [hm]) (by simp [hm, MasterPc.HasClosed])
  | externalPush _ arg =>
    rcases externalPush_cases s arg with ⟨_, he⟩ | ⟨_, he⟩ <;> rw [he]
    · exact h
    · exact ⟨h.count, h.level, h.closed_iff⟩
  | externalNotify _ hw => exact h.wakes hw.wakesSome rfl rfl

theorem reachable {queue : List α} {world : ω}
    (h : Reachable (PoolInit n queue world) (PoolStep prog external) s) : Counted s :=
  Reachable.invariant (I := Counted) (fun _ => init) (fun _ _ _ _ => step) h

theorem numWaitingThreads_le (h : Counted s) : s.queue.numWaitingThreads ≤ n := by
  have hle := sum_le_card WorkerPc.waiting s.workers WorkerPc.waiting_le_one
  rw [Fintype.card_fin] at hle
  rw [h.count]
  exact_mod_cast hle

theorem isComplete_iff (h : Counted s) (hm : s.master ≠ .start) (hn : 0 < n)
    (hclosed : ¬s.master.HasClosed) :
    s.queue.isComplete = true ↔
      (∀ i, (s.workers i).waiting = 1) ∧ s.queue.underlyingQueue = [] := by
  have hopen : s.queue.closed = false := by rwa [← Bool.not_eq_true, h.closed_iff]
  have hlevel : s.queue.numWaitingThreadsNotificationLevel = n := by
    rw [h.level, if_neg (by simp [hm]; omega)]
  rw [SyncQueue.isComplete_iff, hopen, h.count, hlevel]
  simp only [Nat.cast_inj, Bool.false_eq_true, or_false]
  refine and_congr_left fun _ => ⟨fun hsum => ?_, fun hall => by simp [hall]⟩
  exact eq_one_of_sum_eq_card WorkerPc.waiting s.workers WorkerPc.waiting_le_one (by simpa using hsum)

end Counted

namespace Quiet

theorem of_not_hasWaited (h : ¬s.master.HasWaited) : Quiet s := fun hw => absurd hw h

theorem enterPull (h : Quiet s) (hi : s.workers i = .outside) : Quiet (s.enterPull i) := by
  refine of_not_hasWaited fun hw => ?_
  have hw' : s.master.HasWaited := by
    rcases enterPull_master s i with hm | hm <;> rw [hm] at hw
    · exact hw
    · exact MasterPc.hasWaited_wake.mp hw
  have hidle := (h hw').2 i
  rw [hi] at hidle
  exact hidle

theorem resumePull (h : Quiet s) : Quiet (s.resumePull prog i) := by
  rcases resumePull_cases prog s i with ⟨hq, _, he⟩ | ⟨hq, _, he⟩ | ⟨x, xs, hq, he⟩ <;> rw [he]
  · exact fun hw => ⟨hq, idle_update (h hw).2 trivial⟩
  · exact fun hw => ⟨hq, idle_update (h hw).2 trivial⟩
  · exact of_not_hasWaited fun hw => by simpa [hq] using (h hw).1

theorem of_holdsItem (h : Quiet s) (hi : (s.workers i).HoldsItem) (hm : s'.master = s.master) :
    Quiet s' :=
  of_not_hasWaited fun hw => ((h (hm ▸ hw)).2 i).not_holdsItem hi

theorem resumeWait (hc : Counted s) (hm : s.master = .woken) : Quiet s.resumeWait := by
  rcases resumeWait_cases s with ⟨hcomplete, he⟩ | ⟨_, he⟩ <;> rw [he]
  · intro _
    rcases Nat.eq_zero_or_pos n with hn | hn
    · subst hn
      have hopen : ¬s.queue.closed = true := by
        rw [hc.closed_iff, hm]
        exact id
      exact ⟨((SyncQueue.isComplete_iff.mp hcomplete).resolve_right hopen).2, fun i => i.elim0⟩
    · have hall := (hc.isComplete_iff (by simp [hm]) hn (by simp [hm, MasterPc.HasClosed])).mp
        hcomplete
      exact ⟨hall.2, fun i => WorkerPc.idle_of_waiting (hall.1 i)⟩
  · exact of_not_hasWaited id

theorem step {e : Event α} (h : Quiet s) (hc : Counted s) (hs : PoolStep prog False s e s') :
    Quiet s' := by
  cases hs with
  | pullFront i hi => exact (h.enterPull hi).resumePull
  | reacquire i _ => exact h.resumePull
  | spurious i hi => exact fun hw => ⟨(h hw).1, (wakesSome_update hi).idle (h hw).2⟩
  | @push i b arg next hi _ =>
    exact h.of_holdsItem (i := i) (by rw [hi]; trivial) (pushBack_master s i arg next)
  | notify i hi _ => exact h.of_holdsItem (i := i) (by rw [hi]; trivial) rfl
  | work i hi _ => exact h.of_holdsItem (i := i) (by rw [hi]; trivial) rfl
  | finish i hi _ => exact h.of_holdsItem (i := i) (by rw [hi]; trivial) rfl
  | masterWait hm => exact resumeWait (hc.enterWait hm) rfl
  | masterReacquire hm => exact resumeWait hc hm
  | masterSpurious _ => exact of_not_hasWaited id
  | close hm => exact fun _ => h (by rw [hm]; trivial)
  | closeNotify hm =>
    have hq := h (by rw [hm]; trivial)
    exact fun _ => ⟨hq.1, (wakesSome_wake s.workers).idle hq.2⟩
  | join hm _ => exact fun _ => h (by rw [hm]; trivial)
  | externalPush hext _ => exact hext.elim
  | externalNotify _ hw => exact fun hm => ⟨(h hm).1, hw.wakesSome.idle (h hm).2⟩

theorem reachable {queue : List α} {world : ω}
    (h : Reachable (PoolInit n queue world) (PoolStep prog False) s) : Quiet s := by
  refine Reachable.invariant (I := Quiet) (fun t ht => of_not_hasWaited ?_)
    (fun t e u hreach ht hstep => ht.step (Counted.reachable hreach) hstep) h
  subst ht
  exact id

end Quiet

theorem hasWaited_step {e : Event α} (h : s.master.HasWaited) (hs : PoolStep prog external s e s') :
    s'.master.HasWaited := by
  cases hs with
  | pullFront i _ =>
    rw [resumePull_master]
    rcases enterPull_master s i with hm | hm <;> rw [hm]
    · exact h
    · exact MasterPc.hasWaited_wake.mpr h
  | reacquire i _ => rwa [resumePull_master]
  | push i _ _ => rwa [pushBack_master]
  | masterWait hm => simp [hm, MasterPc.HasWaited] at h
  | masterReacquire hm => simp [hm, MasterPc.HasWaited] at h
  | masterSpurious hm => simp [hm, MasterPc.HasWaited] at h
  | externalPush _ arg =>
    rcases externalPush_cases s arg with ⟨_, he⟩ | ⟨_, he⟩ <;> rw [he] <;> exact h
  | close _ => trivial
  | closeNotify _ => trivial
  | join _ _ => trivial
  | _ => exact h

theorem Quiet.no_push {arg : PushArg α} (h : Quiet s) (hw : s.master.HasWaited) :
    ¬PoolStep prog False s (.push arg) s' := by
  intro hs
  cases hs with
  | push i hi _ =>
    have hidle := (h hw).2 i
    rw [hi] at hidle
    exact hidle
  | externalPush hext _ => exact hext

end Invariants

section Completion

variable {prog : WorkerProgram α β ω} {queue : List α} {world : ω} {s : PoolState n α β ω}

/-- The counter equals the number of waiting workers in every reachable state, and a wait
that returned success left nothing queued, nothing in a worker's hands, and no later push. -/
theorem waitForWorkerCompletion_sound
    (h : Reachable (PoolInit n queue world) (PoolStep prog False) s) :
    s.queue.numWaitingThreads = ∑ i, (s.workers i).waiting ∧
      0 ≤ s.queue.numWaitingThreads ∧ s.queue.numWaitingThreads ≤ n ∧
      (s.master = .returned .success →
        s.queue.underlyingQueue = [] ∧ (∀ i, ¬(s.workers i).HoldsItem) ∧
          ∀ t arg u, Steps (PoolStep prog False) s t → ¬PoolStep prog False t (.push arg) u) := by
  have hc := Counted.reachable h
  have hpos : 0 ≤ s.queue.numWaitingThreads := by
    rw [hc.count]
    exact Int.natCast_nonneg _
  refine ⟨hc.count, hpos, hc.numWaitingThreads_le, fun hm => ?_⟩
  have hw : s.master.HasWaited := by
    rw [hm]
    trivial
  have hquiet := Quiet.reachable h hw
  refine ⟨hquiet.1, fun i => (hquiet.2 i).not_holdsItem, fun t arg u hsteps => ?_⟩
  obtain ⟨s₀, hinit, hrun⟩ := h
  have ht := Quiet.reachable ⟨s₀, hinit, hrun.trans hsteps⟩
  have hwt : t.master.HasWaited :=
    Steps.invariant (I := fun u => u.master.HasWaited) (fun _ _ _ => hasWaited_step) hsteps hw
  exact ht.no_push hwt

/-- A worker that holds `k + 1` pushes `k`. -/
def countdown : WorkerProgram Nat Nat Unit where
  load := id
  act
    | 0, _, a => a = .finish
    | k + 1, _, a => a = .push (.value k) 0

theorem waitForWorkerCompletion_sound_countdown :
    ∃ s, Reachable (PoolInit 1 [1] ()) (PoolStep countdown False) s ∧
      s.master = .returned .success ∧ s.queue.underlyingQueue = [] ∧
      ∀ i, ¬(s.workers i).HoldsItem := by
  have hstart : Reachable (PoolInit 1 [1] ()) (PoolStep countdown False) _ := .start rfl
  have hpushed := (hstart.tail (.pullFront 0 rfl)).tail (.push 0 rfl rfl)
  have hnotified := hpushed.tail (.notify 0 rfl (.none fun i => by simp [Subsingleton.elim i 0]))
  have hsecond := (hnotified.tail (.finish 0 rfl rfl)).tail (.pullFront 0 rfl)
  have hasleep := (hsecond.tail (.finish 0 rfl rfl)).tail (.pullFront 0 rfl)
  have hreturned := hasleep.tail (.masterWait rfl)
  have hsound := (waitForWorkerCompletion_sound hreturned).2.2.2 rfl
  exact ⟨_, hreturned, rfl, hsound.1, hsound.2.1⟩

end Completion

end Ucg
