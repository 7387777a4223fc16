import Ucg.Wakeup

/-! Until the master has joined the workers some thread of the pool can go on, without the help
of a spurious wakeup. -/

namespace Ucg

open Transition Function

variable {n : Nat} {α β ω : Type*}

/-- A sleeper wakes without a notification, and nothing else happens. -/
def SpuriousWakeup (s t : PoolState n α β ω) : Prop :=
  (∃ i, s.workers i = .asleep ∧ t = s.setWorker i .woken) ∨
    s.master = .asleep ∧ t = { s with master := .woken }

/-- The body of the loop of a worker never gets stuck. -/
def WorkerProgram.Acts (prog : WorkerProgram α β ω) : Prop := ∀ b world, ∃ a, prog.act b world a

/-- A worker leaves its loop only when the queue is closed. -/
def ExitedClosed (s : PoolState n α β ω) : Prop :=
  ∀ i, s.workers i = .exited → s.queue.closed = true

section Invariant

variable {prog : WorkerProgram α β ω} {external : Prop} {s s' : PoolState n α β ω} {i : Fin n}

namespace ExitedClosed

theorem move (h : ExitedClosed s) {pc : WorkerPc β} (hworkers : s'.workers = update s.workers i pc)
    (hclosed : s'.queue.closed = s.queue.closed)
    (hpc : pc = .exited → s.queue.closed = true) : ExitedClosed s' := by
  intro j hj
  rw [hclosed]
  rw [hworkers] at hj
  by_cases hji : j = i
  · subst hji
    rw [update_self] at hj
    exact hpc hj
  · rw [update_of_ne hji] at hj
    exact h j hj

theorem wakes (h : ExitedClosed s) (hworkers : WakesSome s.workers s'.workers)
    (hclosed : s'.queue.closed = s.queue.closed) : ExitedClosed s' := by
  intro j hj
  rw [hclosed]
  rcases hworkers j with hw | ⟨_, hw⟩
  · exact h j (hw ▸ hj)
  · rw [hw] at hj
    cases hj

theorem enterPull (h : ExitedClosed s) : ExitedClosed (s.enterPull i) :=
  h.move rfl rfl nofun

theorem resumePull (h : ExitedClosed s) : ExitedClosed (s.resumePull prog i) := by
  rcases resumePull_cases prog s i with ⟨_, _, he⟩ | ⟨_, hclosed, he⟩ | ⟨x, xs, _, he⟩ <;> rw [he]
  · exact h.move rfl rfl nofun
  · exact h.move rfl rfl fun _ => hclosed
  · exact h.move rfl rfl nofun

theorem resumeWait (h : ExitedClosed s) : ExitedClosed s.resumeWait := by
  rcases resumeWait_cases s with ⟨_, he⟩ | ⟨_, he⟩ <;> rw [he] <;> exact h

theorem enterWait (h : ExitedClosed s) : ExitedClosed s.enterWait := by
  unfold PoolState.enterWait SyncQueue.setLevel
  split <;> exact h

theorem step {e : Event α} (h : ExitedClosed s) (hs : PoolStep prog external s e s') :
    ExitedClosed s' := by
  cases hs with
  | pullFront i _ => exact h.enterPull.resumePull
  | reacquire i _ => exact h.resumePull
  | spurious i _ => exact h.move rfl rfl nofun
  | push i _ _ =>
    rcases pushBack_cases s i _ _ with ⟨_, he⟩ | ⟨_, he⟩ <;> rw [he] <;> exact h.move rfl rfl nofun
  | @notify i b _ _ _ hw =>
    have hmove : ExitedClosed (s.setWorker i (.processing b)) := h.move rfl rfl nofun
    exact hmove.wakes hw.wakesSome rfl
  | work i _ _ => exact h.move rfl rfl nofun
  | finish i _ _ => exact h.move rfl rfl nofun
  | masterWait _ => exact h.enterWait.resumeWait
  | masterReacquire _ => exact h.resumeWait
  | masterSpurious _ => exact h
  | close _ => exact fun _ _ => rfl
  | closeNotify _ => exact h.wakes (wakesSome_wake _) rfl
  | join _ _ => exact h
  | externalPush _ arg =>
    rcases externalPush_cases s arg with ⟨_, he⟩ | ⟨_, he⟩ <;> rw [he] <;> exact h
  | externalNotify _ hw => exact h.wakes hw.wakesSome rfl

theorem reachable {queue : List α} {world : ω}
    (h : Reachable (PoolInit n queue world) (PoolStep prog external) s) : ExitedClosed s := by
  refine Reachable.invariant (I := ExitedClosed) (fun t ht => ?_) (fun _ _ _ _ => step) h
  subst ht
  exact nofun

end ExitedClosed

end Invariant

section Spurious

variable {prog : WorkerProgram α β ω} {s t : PoolState n α β ω} {i : Fin n}

theorem not_spuriousWakeup_of_worker (hi : s.workers i ≠ .asleep) (hne : t.workers i ≠ s.workers i) :
    ¬ SpuriousWakeup s t := by
  rintro (⟨j, hj, rfl⟩ | ⟨_, rfl⟩)
  · have hij : i ≠ j := fun hij => hi (hij ▸ hj)
    exact hne (update_of_ne hij _ _)
  · exact hne rfl

theorem not_spuriousWakeup_of_master (hm : s.master ≠ .asleep) (hne : t.master ≠ s.master) :
    ¬ SpuriousWakeup s t := by
  rintro (⟨_, _, rfl⟩ | ⟨hasleep, _⟩)
  · exact hne rfl
  · exact hm hasleep

theorem not_spuriousWakeup_of_sleepers
    (hworkers : ∀ j, s.workers j = .asleep → t.workers j = .asleep) (hmaster : t.master = s.master) :
    ¬ SpuriousWakeup s t := by
  rintro (⟨j, hj, rfl⟩ | ⟨hm, rfl⟩)
  · have hwoken := hworkers j hj
    simp [PoolState.setWorker] at hwoken
  · rw [hm] at hmaster
    cases hmaster

theorem not_spuriousWakeup_of_update (hi : s.workers i ≠ .asleep) {pc : WorkerPc β}
    (hworkers : t.workers = update s.workers i pc) (hmaster : t.master = s.master) :
    ¬ SpuriousWakeup s t := by
  refine not_spuriousWakeup_of_sleepers (fun j hj => ?_) hmaster
  have hji : j ≠ i := fun hji => hi (hji ▸ hj)
  rw [hworkers, update_of_ne hji, hj]

theorem resumePull_leaves (prog : WorkerProgram α β ω) (s : PoolState n α β ω) (i : Fin n) :
    (s.resumePull prog i).workers i ≠ .outside ∧ (s.resumePull prog i).workers i ≠ .woken := by
  rcases resumePull_cases prog s i with ⟨_, _, he⟩ | ⟨_, _, he⟩ | ⟨x, xs, _, he⟩ <;> rw [he]
  · simp [PoolState.setWorker]
  · simp
  · simp

theorem exists_notified (k : Notify) (w : Fin n → WorkerPc β) : ∃ w', Notified k w w' := by
  cases k with
  | all => exact ⟨_, .all w⟩
  | one =>
    by_cases hsleeper : ∃ i, w i = .asleep
    · obtain ⟨i, hi⟩ := hsleeper
      exact ⟨_, .one i hi⟩
    · exact ⟨w, .none fun i hi => hsleeper ⟨i, hi⟩⟩

theorem Notified.processing {k : Notify} {w w' : Fin n → WorkerPc β} (h : Notified k w w')
    {b : β} (hi : w i = .processing b) : w' i = .processing b := by
  rcases h.wakesSome i with hw | ⟨hw, _⟩
  · rw [hw, hi]
  · rw [hi] at hw
    cases hw

end Spurious

section Progress

variable {prog : WorkerProgram α β ω} {external : Prop} {s : PoolState n α β ω} {queue : List α}
  {world : ω} {i : Fin n}

/-- A thread other than a spurious sleeper goes on. -/
def PoolState.CanStep (prog : WorkerProgram α β ω) (external : Prop) (s : PoolState n α β ω) : Prop :=
  ∃ e t, PoolStep prog external s e t ∧ ¬ SpuriousWakeup s t

theorem canStep_of_worker (hacts : prog.Acts) (hasleep : s.workers i ≠ .asleep)
    (hexited : s.workers i ≠ .exited) : s.CanStep prog external := by
  cases hi : s.workers i with
  | asleep => exact (hasleep hi).elim
  | exited => exact (hexited hi).elim
  | outside =>
    refine ⟨_, _, .pullFront i hi, not_spuriousWakeup_of_worker hasleep ?_⟩
    rw [hi]
    exact (resumePull_leaves prog (s.enterPull i) i).1
  | woken =>
    refine ⟨_, _, .reacquire i hi, not_spuriousWakeup_of_worker hasleep ?_⟩
    rw [hi]
    exact (resumePull_leaves prog s i).2
  | processing b =>
    obtain ⟨a, ha⟩ := hacts b s.world
    cases a with
    | push arg next =>
      refine ⟨_, _, .push i hi ha, ?_⟩
      rcases pushBack_cases s i arg next with ⟨_, he⟩ | ⟨_, he⟩ <;> rw [he]
      · exact not_spuriousWakeup_of_update hasleep rfl rfl
      · exact not_spuriousWakeup_of_update hasleep rfl rfl
    | work next world => exact ⟨_, _, .work i hi ha, not_spuriousWakeup_of_update hasleep rfl rfl⟩
    | finish => exact ⟨_, _, .finish i hi ha, not_spuriousWakeup_of_update hasleep rfl rfl⟩
  | notifying k b =>
    obtain ⟨w, hw⟩ := exists_notified k (update s.workers i (.processing b))
    refine ⟨_, _, .notify i hi hw, not_spuriousWakeup_of_worker hasleep ?_⟩
    dsimp only
    rw [hw.processing (update_self i _ _), hi]
    simp

theorem canStep_of_master (hm : s.master ≠ .asleep) {e : Event α} {t : PoolState n α β ω}
    (hstep : PoolStep prog external s e t) (hne : t.master ≠ s.master) : s.CanStep prog external :=
  ⟨e, t, hstep, not_spuriousWakeup_of_master hm hne⟩

theorem resumeWait_master (s : PoolState n α β ω) :
    s.resumeWait.master = .returned s.queue.completionStatus ∨ s.resumeWait.master = .asleep := by
  rcases resumeWait_cases s with ⟨_, he⟩ | ⟨_, he⟩ <;> rw [he]
  · exact Or.inl rfl
  · exact Or.inr rfl

/-- No deadlock: every sleeper is attended, so that with all workers asleep and nothing queued the
wait of the master is over. -/
theorem canStep (hn : 0 < n) (hacts : prog.Acts)
    (h : Reachable (PoolInit n queue world) (PoolStep prog external) s) (hm : s.master ≠ .joined) :
    s.CanStep prog external := by
  by_cases hworker : ∃ i, s.workers i ≠ .asleep ∧ s.workers i ≠ .exited
  · obtain ⟨i, hasleep, hexited⟩ := hworker
    exact canStep_of_worker hacts hasleep hexited
  · have hidle (i : Fin n) (hi : s.workers i ≠ .asleep) : s.workers i = .exited :=
      by_contra fun hexited => hworker ⟨i, hi, hexited⟩
    have hcounted := Counted.reachable h
    cases hmaster : s.master with
    | start =>
      refine canStep_of_master (by simp [hmaster]) (.masterWait hmaster) ?_
      rcases resumeWait_master s.enterWait with hw | hw <;> simp [hw, hmaster]
    | woken =>
      refine canStep_of_master (by simp [hmaster]) (.masterReacquire hmaster) ?_
      rcases resumeWait_master s with hw | hw <;> simp [hw, hmaster]
    | returned status => exact canStep_of_master (by simp [hmaster]) (.close hmaster) (by simp [hmaster])
    | closing => exact canStep_of_master (by simp [hmaster]) (.closeNotify hmaster) (by simp [hmaster])
    | joined => exact (hm hmaster).elim
    | joining =>
      have hclosed := hcounted.closed_iff.mpr (by rw [hmaster]; trivial)
      refine canStep_of_master (by simp [hmaster]) (.join hmaster fun i => hidle i fun hi => ?_)
        (by simp [hmaster])
      simp [CloseAttended.reachable h i hi hclosed] at hmaster
    | asleep =>
      have hopen : ¬ s.master.HasClosed := by simp [hmaster, MasterPc.HasClosed]
      have hasleep (i : Fin n) : s.workers i = .asleep := by
        by_contra hi
        exact hopen (hcounted.closed_iff.mp (ExitedClosed.reachable h i (hidle i hi)))
      have hqueue : s.queue.underlyingQueue ≠ [] := fun hempty => by
        have hcomplete := (hcounted.isComplete_iff (by simp [hmaster]) hn hopen).mpr
          ⟨fun i => by rw [hasleep i]; rfl, hempty⟩
        simp [MasterAttended.reachable h hmaster] at hcomplete
      rcases ItemsAttended.reachable h ⟨0, hn⟩ (hasleep _) hqueue with ⟨j, hj⟩ | ⟨k, hk⟩ | hclosing
      · rw [hasleep j] at hj
        exact hj.elim
      · obtain ⟨w, hw⟩ := exists_notified k s.workers
        refine ⟨_, _, .externalNotify hk hw, ?_⟩
        rintro (⟨_, _, ht⟩ | ⟨_, ht⟩)
        · have hpending := congrArg (fun u => u.pending k) ht
          simp only [PoolState.setWorker, update_self] at hpending
          omega
        · have hpending := congrArg (fun u => u.pending k) ht
          simp only [update_self] at hpending
          omega
      · simp [hmaster] at hclosing

end Progress

end Ucg
