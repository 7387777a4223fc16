import Ucg.CloseWaiters

/-! What `pull_front` returns to a thread that has the lock, and the queue as a whole. -/

namespace Ucg

open Transition Function

variable {ι α : Type*}

/-- Thread `i` takes the lock in `pull_front` when it runs next: it calls, or has been woken. -/
def AtPull (s : ClientState ι α) (i : ι) : Prop := s.threads i = .idle ∨ s.threads i = .pullWoken

section Steps

variable {s t : ClientState ι α} {e : ClientEvent α} {i : ι}

theorem canPull_iff {q : SyncQueue α} :
    q.canPull = true ↔ q.underlyingQueue ≠ [] ∨ q.closed = true := by
  simp [SyncQueue.canPull]

theorem enterPull_queue (s : ClientState ι α) :
    s.enterPull.queue.underlyingQueue = s.queue.underlyingQueue ∧
      s.enterPull.queue.closed = s.queue.closed := by
  rw [ClientState.enterPull]
  split <;> exact ⟨rfl, rfl⟩

theorem enterPull_woken (hi : s.threads i = .pullWoken) : s.enterPull.threads i = .pullWoken := by
  rw [ClientState.enterPull]
  split
  · simp [ClientState.wakeWaiters, hi, ClientPc.wakeWaiter]
  · exact hi

variable [DecidableEq ι]

theorem resumePull_of_canPull (i : ι) (h : s.queue.canPull = true) :
    (s.resumePull i).1 = .pull s.queue.underlyingQueue.head? ∧
      (s.resumePull i).2.queue.underlyingQueue = s.queue.underlyingQueue.tail ∧
      (s.resumePull i).2.queue.closed = s.queue.closed ∧ (s.resumePull i).2.threads i = .idle := by
  rw [ClientState.resumePull, if_pos h]
  cases hqueue : s.queue.underlyingQueue with
  | nil => simp [SyncQueue.leavePull, hqueue]
  | cons x rest => simp [SyncQueue.leavePull, hqueue]

/-- With something to pull or after the close, `pull_front` returns the front, or closed. -/
theorem AtPull.pull (hi : AtPull s i) (hcan : s.queue.canPull = true) :
    ∃ t, ClientStep s (.pull s.queue.underlyingQueue.head?) t ∧
      t.queue.underlyingQueue = s.queue.underlyingQueue.tail ∧ t.queue.closed = s.queue.closed ∧
      t.threads i = .idle := by
  rcases hi with hidle | hwoken
  · obtain ⟨hqueue, hclosed⟩ := enterPull_queue s
    have hcan' : s.enterPull.queue.canPull = true := by
      rwa [canPull_iff, hqueue, hclosed, ← canPull_iff]
    obtain ⟨hevent, hrest, hkeeps, hpc⟩ := resumePull_of_canPull i hcan'
    have hstep := ClientStep.pullFront i hidle
    rw [hevent, hqueue] at hstep
    exact ⟨_, hstep, hqueue ▸ hrest, hkeeps.trans hclosed, hpc⟩
  · obtain ⟨hevent, hrest, hkeeps, hpc⟩ := resumePull_of_canPull i hcan
    have hstep := ClientStep.pullReacquire i hwoken
    rw [hevent] at hstep
    exact ⟨_, hstep, hrest, hkeeps, hpc⟩

theorem PullersNotified.keeps_woken {k : Notify} {w w' : ι → ClientPc} (h : PullersNotified k w w')
    (hi : w i = .pullWoken) : w' i = .pullWoken := by
  cases h with
  | all => simp [hi, ClientPc.wakePuller]
  | one j =>
    by_cases hij : i = j
    · rw [hij, update_self]
    · rwa [update_of_ne hij]
  | none => exact hi

theorem resumePull_woken_of_ne {j : ι} (hi : s.threads i = .pullWoken) (hij : i ≠ j) :
    (s.resumePull j).2.threads i = .pullWoken := by
  rw [ClientState.resumePull]
  split
  · exact (update_of_ne hij ..).trans hi
  · exact (update_of_ne hij ..).trans hi

theorem resumeWait_woken_of_ne {j : ι} (hi : s.threads i = .pullWoken) (hij : i ≠ j) :
    (s.resumeWait j).2.threads i = .pullWoken := by
  rw [ClientState.resumeWait]
  split
  · exact (update_of_ne hij ..).trans hi
  · exact (update_of_ne hij ..).trans hi

/-- A thread that was woken in `pull_front` runs its locked section there next. -/
theorem ClientStep.of_pullWoken (h : ClientStep s e t) (hi : s.threads i = .pullWoken) :
    t.threads i = .pullWoken ∨ e = (s.resumePull i).1 ∧ t = (s.resumePull i).2 := by
  have hne : ∀ {j : ι} {pc : ClientPc}, s.threads j = pc → pc ≠ .pullWoken → i ≠ j := by
    rintro j pc hj hpc rfl
    exact hpc (hj.symm.trans hi)
  cases h with
  | push j arg hj =>
    rw [ClientState.pushBack]
    split
    · exact Or.inl ((update_of_ne (hne hj (by decide)) ..).trans hi)
    · exact Or.inl hi
  | notify j hj hw =>
    exact Or.inl (hw.keeps_woken ((update_of_ne (hne hj (by simp)) ..).trans hi))
  | pullFront j hj => exact Or.inl (resumePull_woken_of_ne (enterPull_woken hi) (hne hj (by decide)))
  | pullReacquire j =>
    by_cases hij : i = j
    · subst hij
      exact Or.inr ⟨rfl, rfl⟩
    · exact Or.inl (resumePull_woken_of_ne hi hij)
  | pullSpurious j hj => exact Or.inl ((update_of_ne (hne hj (by decide)) ..).trans hi)
  | close j hj => exact Or.inl ((update_of_ne (hne hj (by decide)) ..).trans hi)
  | closeNotify j hj =>
    have hupdate : update s.threads j .idle i = .pullWoken :=
      (update_of_ne (hne hj (by decide)) ..).trans hi
    exact Or.inl (by simp [hupdate, ClientPc.wakePuller])
  | wait j numWorkers hj =>
    have henter : (s.enterWait numWorkers).threads i = .pullWoken := by
      simp [ClientState.enterWait, ClientState.wakeWaiters, hi, ClientPc.wakeWaiter]
    exact Or.inl (resumeWait_woken_of_ne henter (hne hj (by decide)))
  | waitReacquire j hj => exact Or.inl (resumeWait_woken_of_ne hi (hne hj (by decide)))
  | waitSpurious j hj => exact Or.inl ((update_of_ne (hne hj (by decide)) ..).trans hi)

/-- It returns what is at the front, or closed at the end, and else sleeps again. -/
theorem ClientStep.leaves_wait (h : ClientStep s e t) (hi : s.threads i = .pullWoken)
    (hleaves : t.threads i ≠ .pullWoken) :
    (e = .pull s.queue.underlyingQueue.head? ∧
        t.queue.underlyingQueue = s.queue.underlyingQueue.tail ∧ t.threads i = .idle) ∨
      (e = .internal ∧ t.threads i = .pullAsleep ∧ s.queue.underlyingQueue = [] ∧
        s.queue.closed = false) := by
  obtain ⟨rfl, rfl⟩ := (h.of_pullWoken hi).resolve_left hleaves
  by_cases hcan : s.queue.canPull = true
  · obtain ⟨hevent, hrest, -, hpc⟩ := resumePull_of_canPull i hcan
    exact Or.inl ⟨hevent, hrest, hpc⟩
  · rw [ClientState.resumePull, if_neg hcan]
    rw [canPull_iff, not_or, not_not, Bool.not_eq_true] at hcan
    exact Or.inr ⟨rfl, update_self .., hcan⟩

theorem push_of_open {arg : PushArg α} (hi : s.threads i = .idle) (hopen : s.queue.closed = false) :
    ∃ t, ClientStep s (.push arg .success) t ∧
      t.queue.underlyingQueue = s.queue.underlyingQueue ++ arg.values := by
  have hstep := ClientStep.push i arg hi
  rw [ClientState.pushBack, SyncQueue.pushBack_of_open hopen] at hstep
  exact ⟨_, hstep, rfl⟩

end Steps

section Runs

variable [DecidableEq ι] {l : List (ClientEvent α)} {s : ClientState ι α}

theorem closed_iff_mem (h : Traced ClientInit ClientStep l s) : s.queue.closed = true ↔ .close ∈ l := by
  have hiff := Fifo.closed_iff (clients_simulate_fifo h)
  simpa [op_eq_close, SyncQueue.abstract] using hiff

theorem conserved (h : Traced ClientInit ClientStep l s) :
    pulled l ++ s.queue.underlyingQueue = pushed l := by
  rw [← delivered_ops, ← accepted_ops]
  exact Fifo.conservation (clients_simulate_fifo h)

/-- After a close one thread alone can pull all that is left, and then the end. -/
theorem drains {i : ι} (hi : AtPull s i) (hclosed : s.queue.closed = true) :
    ∃ t, Traced (· = s) ClientStep
      ((s.queue.underlyingQueue.map fun x => .pull (some x)) ++ [.pull none]) t := by
  induction hqueue : s.queue.underlyingQueue generalizing s with
  | nil =>
    obtain ⟨t, hstep, -⟩ := hi.pull (canPull_iff.mpr (Or.inr hclosed))
    rw [hqueue] at hstep
    exact ⟨t, .head hstep (.start rfl)⟩
  | cons x rest ih =>
    obtain ⟨t, hstep, hrest, hkeeps, hidle⟩ := hi.pull (canPull_iff.mpr (Or.inr hclosed))
    rw [hqueue] at hstep hrest
    obtain ⟨u, hrun⟩ := ih (Or.inl hidle) (hkeeps.trans hclosed) hrest
    exact ⟨u, .head hstep hrun⟩

end Runs

/-- The queue is a first-in first-out queue with close: the locked sections, in the order in
which they hold the lock, are a run of the abstract queue. What was pulled and then what is
left is what was pushed; once closed, a push is refused and changes nothing, and before that it
succeeds. A thread in `pull_front` gets the front of the queue, sleeps on only when there is
none and the queue is open, and gets closed only when all that was pushed has been pulled. After
the close nobody stays asleep there, and any thread that keeps pulling gets all that is left. -/
theorem syncQueue_linearisable [DecidableEq ι] {l : List (ClientEvent α)} {s : ClientState ι α}
    (h : Traced ClientInit ClientStep l s) :
    Traced Fifo.Init Fifo.Step (l.filterMap ClientEvent.op) s.queue.abstract ∧
      pulled l ++ s.queue.underlyingQueue = pushed l ∧
      (∀ e t, ClientStep s e t →
        (∀ arg status, e = .push arg status → .close ∈ l → status = .closed ∧ t = s) ∧
        (e = .pull none → .close ∈ l ∧ s.queue.underlyingQueue = [] ∧ pulled l = pushed l) ∧
        ∀ i, s.threads i = .pullWoken → t.threads i ≠ .pullWoken →
          (e = .pull s.queue.underlyingQueue.head? ∧
              t.queue.underlyingQueue = s.queue.underlyingQueue.tail ∧ t.threads i = .idle) ∨
            (e = .internal ∧ t.threads i = .pullAsleep ∧ s.queue.underlyingQueue = [] ∧
              .close ∉ l)) ∧
      (∀ i, s.threads i = .idle → .close ∉ l → ∀ arg, ∃ t, ClientStep s (.push arg .success) t ∧
        t.queue.underlyingQueue = s.queue.underlyingQueue ++ arg.values) ∧
      (∀ i, AtPull s i →
        (∀ x rest, s.queue.underlyingQueue = x :: rest → ∃ t, ClientStep s (.pull (some x)) t ∧
          t.queue.underlyingQueue = rest ∧ t.threads i = .idle) ∧
        (.close ∈ l → ∃ t, Traced (· = s) ClientStep
          ((s.queue.underlyingQueue.map fun x => .pull (some x)) ++ [.pull none]) t)) ∧
      (.closeReturned ∈ l → ∀ i, s.threads i ≠ .pullAsleep) := by
  have hclosed := closed_iff_mem h
  have hopen : s.queue.closed = false ↔ .close ∉ l := by rw [← Bool.not_eq_true, hclosed]
  refine ⟨clients_simulate_fifo h, conserved h, fun e t hstep => ⟨?_, ?_, ?_⟩, ?_, ?_,
    (afterClose h).pullers⟩
  · rintro arg status rfl hclose
    exact hstep.pushBack_closed (hclosed.mpr hclose)
  · rintro rfl
    obtain ⟨hempty, hc⟩ := hstep.pull_none
    refine ⟨hclosed.mp hc, hempty, ?_⟩
    rw [← conserved h, hempty, List.append_nil]
  · intro i hi hleaves
    rw [← hopen]
    exact hstep.leaves_wait hi hleaves
  · intro i hi hnot arg
    exact push_of_open hi (hopen.mpr hnot)
  · intro i hi
    constructor
    · intro x rest hqueue
      obtain ⟨t, hstep, hrest, -, hidle⟩ := hi.pull (canPull_iff.mpr (Or.inl (by simp [hqueue])))
      rw [hqueue] at hstep hrest
      exact ⟨t, hstep, hrest, hidle⟩
    · intro hclose
      exact drains hi (hclosed.mpr hclose)

/-- A sleeper is woken by a container of two values and takes the first; behind the close a push
is refused, and the other value and the end are still delivered. -/
theorem syncQueue_linearisable_container :
    let l : List (ClientEvent Nat) := [.internal, .push (.container [1, 2]) .success, .internal,
      .pull (some 1), .close, .closeReturned, .push (.value 3) .closed]
    ∃ s : ClientState Bool Nat, Traced ClientInit ClientStep l s ∧ s.queue.underlyingQueue = [2] ∧
      pulled l ++ [2] = pushed l ∧ (∀ t, ¬ ClientStep s (.push (.value 4) .success) t) ∧
      ∃ t, Traced (· = s) ClientStep [.pull (some 2), .pull none] t := by
  intro l
  have hstart : Traced ClientInit ClientStep [] (⟨{}, fun _ => .idle⟩ : ClientState Bool Nat) :=
    .start rfl
  have hasleep := hstart.tail (.pullFront true rfl)
  have hpush := hasleep.tail (.push false (.container [1, 2]) rfl)
  have hwoken := hpush.tail (.notify false rfl (.all _))
  have htaken := hwoken.tail (.pullReacquire true rfl)
  have hclose := htaken.tail (.close false rfl)
  have hreturned := hclose.tail (.closeNotify false rfl)
  have hrefused := hreturned.tail (.push false (.value 3) rfl)
  have hmem : ClientEvent.close ∈ l := by simp [l]
  obtain ⟨-, hconserved, hstep, -, hpull, -⟩ := syncQueue_linearisable hrefused
  refine ⟨_, hrefused, rfl, hconserved, fun t ht => ?_, (hpull true (Or.inl rfl)).2 hmem⟩
  cases ((hstep _ t ht).1 _ _ rfl hmem).1

end Ucg
