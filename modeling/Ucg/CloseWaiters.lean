import Ucg.QueueClients

/-! Which threads `close` releases: those asleep in `pull_front`, and those asleep in
`wait_for_worker_completion` only when something else wakes them. -/

namespace Ucg

open Transition Function

variable {ι α : Type*}

/-- Running, or woken and waiting for the lock only. -/
def ClientPc.Awake : ClientPc → Prop
  | .idle | .pullWoken | .notifying _ | .waitWoken => True
  | _ => False

def Rouses (w w' : ι → ClientPc) : Prop := ∀ j, w' j = w j ∨ (w' j).Awake

/-- Where a step may leave the threads. Only in an open queue does a thread fall asleep. -/
def Moves (q : SyncQueue α) (e : ClientEvent α) (w w' : ι → ClientPc) : Prop :=
  ∀ j, w' j = w j ∨ (w' j).Awake ∨ (w' j = .closing ∧ e = .close) ∨
    ((w' j = .pullAsleep ∨ w' j = .waitAsleep) ∧ q.closed = false ∧ e = .internal)

theorem ClientPc.wakePuller_ne (pc : ClientPc) : pc.wakePuller ≠ .pullAsleep := by
  cases pc <;> simp [wakePuller]

section Threads

variable {w w' w'' : ι → ClientPc} {q : SyncQueue α} {e : ClientEvent α}

theorem Rouses.refl (w : ι → ClientPc) : Rouses w w := fun _ => Or.inl rfl

theorem Rouses.trans (h : Rouses w w') (h' : Rouses w' w'') : Rouses w w'' := by
  intro j
  rcases h' j with hj | hj
  · rcases h j with hj' | hj'
    · exact Or.inl (hj.trans hj')
    · exact Or.inr (by rwa [hj])
  · exact Or.inr hj

theorem Rouses.moves (h : Rouses w w') : Moves q e w w' := fun j => (h j).imp_right Or.inl

theorem rouses_wakePuller (w : ι → ClientPc) : Rouses w fun i => (w i).wakePuller := by
  intro j
  dsimp only
  cases w j <;> simp [ClientPc.wakePuller, ClientPc.Awake]

theorem rouses_wakeWaiter (w : ι → ClientPc) : Rouses w fun i => (w i).wakeWaiter := by
  intro j
  dsimp only
  cases w j <;> simp [ClientPc.wakeWaiter, ClientPc.Awake]

variable [DecidableEq ι]

theorem Rouses.update (h : Rouses w w') (i : ι) (pc : ClientPc) (hpc : pc.Awake) :
    Rouses w (update w' i pc) := by
  intro j
  by_cases hj : j = i
  · rw [hj, update_self]
    exact Or.inr hpc
  · rw [update_of_ne hj]
    exact h j

theorem Rouses.moves_update (h : Rouses w w') (i : ι) {pc : ClientPc}
    (hpc : (pc = .closing ∧ e = .close) ∨
      ((pc = .pullAsleep ∨ pc = .waitAsleep) ∧ q.closed = false ∧ e = .internal)) :
    Moves q e w (Function.update w' i pc) := by
  intro j
  by_cases hj : j = i
  · rw [hj, update_self]
    exact Or.inr (Or.inr hpc)
  · rw [update_of_ne hj]
    exact h.moves j

theorem PullersNotified.rouses {k : Notify} (h : PullersNotified k w w') : Rouses w w' := by
  cases h with
  | all => exact rouses_wakePuller w
  | one i => exact (Rouses.refl w).update i .pullWoken trivial
  | none => exact Rouses.refl w

end Threads

section Steps

variable {s t : ClientState ι α} {e : ClientEvent α}

theorem rouses_enterPull (s : ClientState ι α) : Rouses s.threads s.enterPull.threads := by
  rw [ClientState.enterPull]
  split
  · exact rouses_wakeWaiter s.threads
  · exact Rouses.refl s.threads

theorem rouses_enterWait (s : ClientState ι α) (numWorkers : Nat) :
    Rouses s.threads (s.enterWait numWorkers).threads := rouses_wakeWaiter s.threads

theorem Moves.of_abstract {q r : SyncQueue α} {w w' : ι → ClientPc} (h : Moves r e w w')
    (hq : r.abstract = q.abstract) : Moves q e w w' := by
  have hclosed : r.closed = q.closed := congrArg Fifo.Queue.closed hq
  simpa only [Moves, hclosed] using h

variable [DecidableEq ι]

theorem moves_resumePull {w : ι → ClientPc} (h : Rouses w s.threads) (i : ι) :
    Moves s.queue (s.resumePull i).1 w (s.resumePull i).2.threads := by
  rw [ClientState.resumePull]
  by_cases hcan : s.queue.canPull = true
  · rw [if_pos hcan]
    exact (h.update i .idle trivial).moves
  · rw [if_neg hcan]
    have hopen : s.queue.closed = false := by
      simp only [SyncQueue.canPull, Bool.or_eq_true, not_or, Bool.not_eq_true] at hcan
      exact hcan.2
    exact h.moves_update i (Or.inr ⟨Or.inl rfl, hopen, rfl⟩)

theorem moves_resumeWait {w : ι → ClientPc} (h : Rouses w s.threads) (i : ι) :
    Moves s.queue (s.resumeWait i).1 w (s.resumeWait i).2.threads := by
  rw [ClientState.resumeWait]
  by_cases hcomplete : s.queue.isComplete = true
  · rw [if_pos hcomplete]
    exact (h.update i .idle trivial).moves
  · rw [if_neg hcomplete]
    have hopen : s.queue.closed = false := by
      simp only [SyncQueue.isComplete, Bool.or_eq_true, not_or, Bool.not_eq_true] at hcomplete
      exact hcomplete.2
    exact h.moves_update i (Or.inr ⟨Or.inr rfl, hopen, rfl⟩)

theorem ClientStep.moves (h : ClientStep s e t) : Moves s.queue e s.threads t.threads := by
  have hrefl := Rouses.refl s.threads
  cases h with
  | push i arg =>
    rw [ClientState.pushBack]
    split
    · exact (hrefl.update i (.notifying arg.notify) trivial).moves
    · exact hrefl.moves
  | notify i hi hw => exact ((hrefl.update i .idle trivial).trans hw.rouses).moves
  | pullFront i =>
    exact (moves_resumePull (rouses_enterPull s) i).of_abstract (abstract_enterPull s)
  | pullReacquire i => exact moves_resumePull hrefl i
  | pullSpurious i => exact (hrefl.update i .pullWoken trivial).moves
  | close i => exact hrefl.moves_update i (Or.inl ⟨rfl, rfl⟩)
  | closeNotify i => exact ((hrefl.update i .idle trivial).trans (rouses_wakePuller _)).moves
  | wait i numWorkers =>
    exact (moves_resumeWait (rouses_enterWait s numWorkers) i).of_abstract
      (abstract_enterWait s numWorkers)
  | waitReacquire i => exact moves_resumeWait hrefl i
  | waitSpurious i => exact (hrefl.update i .waitWoken trivial).moves

theorem ClientStep.closed (h : ClientStep s e t) :
    t.queue.closed = true ↔ s.queue.closed = true ∨ e = .close := by
  rw [← op_eq_close]
  rcases h.simulates with ⟨op, hop, hstep⟩ | ⟨hop, habs⟩
  · rw [hop, Option.some.injEq]
    exact hstep.closed_iff
  · have hclosed : t.queue.closed = s.queue.closed := congrArg Fifo.Queue.closed habs
    simp [hop, hclosed]

theorem ClientStep.asleep (h : ClientStep s e t) (hclosed : s.queue.closed = true) {j : ι}
    {pc : ClientPc} (hpc : pc = .pullAsleep ∨ pc = .waitAsleep) (hj : t.threads j = pc) :
    s.threads j = pc := by
  rcases h.moves j with hsame | hawake | ⟨hclosing, -⟩ | ⟨-, hopen, -⟩
  · exact hsame ▸ hj
  · rcases hpc with rfl | rfl <;> simp [hj, ClientPc.Awake] at hawake
  · rcases hpc with rfl | rfl <;> simp [hj] at hclosing
  · simp [hclosed] at hopen

end Steps

/-- After a close: the queue stays closed, whoever is to notify after a close has closed it, and
once a `close` has returned nobody sleeps in `pull_front`. -/
structure AfterClose (l : List (ClientEvent α)) (s : ClientState ι α) : Prop where
  closing : ∀ i, s.threads i = .closing → s.queue.closed = true
  closed : .closeReturned ∈ l → s.queue.closed = true
  pullers : .closeReturned ∈ l → ∀ i, s.threads i ≠ .pullAsleep

section Runs

variable [DecidableEq ι] {s t : ClientState ι α} {e : ClientEvent α} {l : List (ClientEvent α)}

theorem AfterClose.step (h : AfterClose l s) (hs : ClientStep s e t) : AfterClose (l ++ [e]) t := by
  have hkeep : s.queue.closed = true → t.queue.closed = true := fun hc => hs.closed.mpr (Or.inl hc)
  refine ⟨fun i hi => ?_, fun hmem => ?_, fun hmem i hi => ?_⟩
  · rcases hs.moves i with hsame | hawake | ⟨-, hclose⟩ | ⟨hasleep, -⟩
    · exact hkeep (h.closing i (hsame ▸ hi))
    · simp [hi, ClientPc.Awake] at hawake
    · exact hs.closed.mpr (Or.inr hclose)
    · simp [hi] at hasleep
  · rcases List.mem_append.mp hmem with hmem | hmem
    · exact hkeep (h.closed hmem)
    · obtain rfl := List.mem_singleton.mp hmem
      obtain ⟨i, hi, -⟩ := hs.of_closeReturned
      exact hkeep (h.closing i hi)
  · rcases List.mem_append.mp hmem with hmem | hmem
    · exact h.pullers hmem i (hs.asleep (h.closed hmem) (Or.inl rfl) hi)
    · obtain rfl := List.mem_singleton.mp hmem
      obtain ⟨j, -, rfl⟩ := hs.of_closeReturned
      exact ClientPc.wakePuller_ne _ hi

theorem afterClose (h : Traced ClientInit ClientStep l s) : AfterClose l s := by
  refine h.invariant ?_ fun l s e t _ hs hstep => hs.step hstep
  rintro s rfl
  exact ⟨by simp, by simp, by simp⟩

/-- A step that calls `close` only when nobody sleeps in `wait_for_worker_completion`. -/
def QuietStep (s : ClientState ι α) (e : ClientEvent α) (t : ClientState ι α) : Prop :=
  ClientStep s e t ∧ (e = .close → ∀ i, s.threads i ≠ .waitAsleep)

theorem traced_of_quiet (h : Traced ClientInit QuietStep l s) : Traced ClientInit ClientStep l s := by
  induction h with
  | start h => exact .start h
  | tail _ hstep ih => exact ih.tail hstep.1

theorem quiet_waiters (h : Traced ClientInit QuietStep l s) (hclosed : s.queue.closed = true) (i : ι) :
    s.threads i ≠ .waitAsleep := by
  induction h with
  | start h =>
    subst h
    simp at hclosed
  | @tail l s t hrun e hstep ih =>
    intro hi
    by_cases hc : s.queue.closed = true
    · exact ih hc (hstep.1.asleep hc (Or.inr rfl) hi)
    · obtain rfl : e = ClientEvent.close := (hstep.1.closed.mp hclosed).resolve_left hc
      rcases hstep.1.moves i with hsame | hawake | ⟨hclosing, -⟩ | ⟨-, -, hinternal⟩
      · exact hstep.2 rfl i (hsame ▸ hi)
      · simp [hi, ClientPc.Awake] at hawake
      · simp [hi] at hclosing
      · cases hinternal

end Runs

/-- In every run that calls `close` only when nobody sleeps in `wait_for_worker_completion`, once
a `close` has returned nobody sleeps any more. When `close` is called while somebody sleeps
there, it can return with the sleeper still asleep. -/
theorem close_releases_sleepers [DecidableEq ι] {l : List (ClientEvent α)} {s : ClientState ι α}
    (h : Traced ClientInit QuietStep l s) :
    (.closeReturned ∈ l → ∀ i, s.threads i ≠ .pullAsleep ∧ s.threads i ≠ .waitAsleep) ∧
      ∀ i t, ClientStep s .close t → s.threads i = .waitAsleep →
        ∃ t', ClientStep t .closeReturned t' ∧ t'.threads i = .waitAsleep := by
  have hafter := afterClose (traced_of_quiet h)
  constructor
  · intro hreturned i
    exact ⟨hafter.pullers hreturned i, quiet_waiters h (hafter.closed hreturned) i⟩
  · intro i t hclose hi
    obtain ⟨j, hj, rfl⟩ := hclose.of_close
    have hne : i ≠ j := by
      rintro rfl
      simp [hi] at hj
    refine ⟨_, .closeNotify j (update_self ..), ?_⟩
    simp [update_of_ne hne, hi, ClientPc.wakePuller]

theorem close_releases_sleepers_puller :
    ∃ (l : List (ClientEvent Nat)) (s : ClientState Bool Nat), Traced ClientInit QuietStep l s ∧
      .closeReturned ∈ l ∧ s.threads true = .pullWoken ∧
      ∀ i, s.threads i ≠ .pullAsleep ∧ s.threads i ≠ .waitAsleep := by
  have hstart : Traced ClientInit QuietStep [] (⟨{}, fun _ => .idle⟩ : ClientState Bool Nat) :=
    .start rfl
  have hpull := hstart.tail ⟨.pullFront true rfl, fun he => by cases he⟩
  have hclose := hpull.tail ⟨.close false rfl, fun _ i => by cases i <;> decide⟩
  have hnotify := hclose.tail ⟨.closeNotify false rfl, fun he => by cases he⟩
  exact ⟨_, _, hnotify, List.mem_concat_self, rfl,
    (close_releases_sleepers hnotify).1 List.mem_concat_self⟩

/-- A thread asleep in `wait_for_worker_completion(1)` sleeps on when another thread closes. -/
theorem not_close_releases_sleepers :
    ¬ ∀ (l : List (ClientEvent Nat)) (s : ClientState Bool Nat), Traced ClientInit ClientStep l s →
      .closeReturned ∈ l → ∀ i, s.threads i ≠ .pullAsleep ∧ s.threads i ≠ .waitAsleep := by
  intro hclaim
  have hstart : Traced ClientInit ClientStep [] (⟨{}, fun _ => .idle⟩ : ClientState Bool Nat) :=
    .start rfl
  have hwait := hstart.tail (.wait true 1 rfl)
  have hclose := hwait.tail (.close false rfl)
  have hnotify := hclose.tail (.closeNotify false rfl)
  have hreturned := hclaim _ _ hnotify List.mem_concat_self
  exact (hreturned true).2 rfl

end Ucg
