import Ucg.Lib.Transition
import Ucg.SyncQueue

/-! Worker threads that pull items from a `sync_queue`, process them and may push more, the
master that waits for them and closes the queue, and threads outside that push. -/

namespace Ucg

open Transition Function

inductive WorkAct (α β ω : Type*)
  | push (arg : PushArg α) (next : β)
  | work (next : β) (world : ω)
  | finish

/-- The body of the loop around `pull_front`. `world` is shared, and `act` may have choices. -/
structure WorkerProgram (α β ω : Type*) where
  load : α → β
  act : β → ω → WorkAct α β ω → Prop

/-- Where a worker stands: before `pull_front`, asleep on `m_cv`, woken but without the
lock, with an item, behind the unlock of a push, or behind its loop. -/
inductive WorkerPc (β : Type*)
  | outside
  | asleep
  | woken
  | processing (b : β)
  | notifying (k : Notify) (b : β)
  | exited

/-- Where the master stands: before `wait_for_worker_completion`, asleep on `m_cv_complete`,
woken but without the lock, behind the wait, behind the unlock of `close`, joining, joined. -/
inductive MasterPc
  | start
  | asleep
  | woken
  | returned (status : QueueOpStatus)
  | closing
  | joining
  | joined
  deriving DecidableEq, Repr

/-- `pending` counts the notifications that threads outside owe after their pushes. -/
structure PoolState (n : Nat) (α β ω : Type*) where
  queue : SyncQueue α
  workers : Fin n → WorkerPc β
  master : MasterPc
  pending : Notify → Nat
  world : ω

/-- Whether the thread is between its entry to `pull_front` and the end of the wait there. -/
def WorkerPc.waiting {β : Type*} : WorkerPc β → Nat
  | .asleep | .woken => 1
  | _ => 0

def WorkerPc.HoldsItem {β : Type*} : WorkerPc β → Prop
  | .processing _ | .notifying _ _ => True
  | _ => False

def WorkerPc.wake {β : Type*} : WorkerPc β → WorkerPc β
  | .asleep => .woken
  | pc => pc

def MasterPc.wake : MasterPc → MasterPc
  | .asleep => .woken
  | pc => pc

variable {n : Nat} {α β ω : Type*}

/-- The sleepers that a notification of `m_cv` wakes: all, or one if there is one. -/
inductive Notified : Notify → (Fin n → WorkerPc β) → (Fin n → WorkerPc β) → Prop
  | all (w : Fin n → WorkerPc β) : Notified .all w fun i => (w i).wake
  | one {w : Fin n → WorkerPc β} (i : Fin n) (h : w i = .asleep) : Notified .one w (update w i .woken)
  | none {w : Fin n → WorkerPc β} (h : ∀ i, w i ≠ .asleep) : Notified .one w w

namespace PoolState

def setWorker (s : PoolState n α β ω) (i : Fin n) (pc : WorkerPc β) : PoolState n α β ω :=
  { s with workers := update s.workers i pc }

def enterPull (s : PoolState n α β ω) (i : Fin n) : PoolState n α β ω :=
  { s with
    queue := s.queue.enterPull.1
    workers := update s.workers i .woken
    master := if s.queue.enterPull.2 then s.master.wake else s.master }

/-- Worker `i` has the lock inside the wait of `pull_front`: it sleeps again, or goes on. -/
def resumePull (prog : WorkerProgram α β ω) (s : PoolState n α β ω) (i : Fin n) :
    PoolState n α β ω :=
  if s.queue.canPull then
    match s.queue.leavePull with
    | (q, some x) => { s with queue := q, workers := update s.workers i (.processing (prog.load x)) }
    | (q, none) => { s with queue := q, workers := update s.workers i .exited }
  else s.setWorker i .asleep

/-- The locked part of `push_back` by worker `i`. A closed queue fails the push. -/
def pushBack (s : PoolState n α β ω) (i : Fin n) (arg : PushArg α) (next : β) :
    PoolState n α β ω :=
  match s.queue.pushBack arg with
  | (q, .success) => { s with queue := q, workers := update s.workers i (.notifying arg.notify next) }
  | (q, .closed) => { s with queue := q, workers := update s.workers i (.processing next) }

def externalPush (s : PoolState n α β ω) (arg : PushArg α) : PoolState n α β ω :=
  match s.queue.pushBack arg with
  | (q, .success) =>
    { s with queue := q, pending := update s.pending arg.notify (s.pending arg.notify + 1) }
  | (q, .closed) => { s with queue := q }

/-- The entry to `wait_for_worker_completion(n)`. The master is the only waiter there. -/
def enterWait (s : PoolState n α β ω) : PoolState n α β ω :=
  { s with queue := s.queue.setLevel n, master := .woken }

def resumeWait (s : PoolState n α β ω) : PoolState n α β ω :=
  if s.queue.isComplete then { s with master := .returned s.queue.completionStatus }
  else { s with master := .asleep }

end PoolState

inductive Event (α : Type*)
  | push (arg : PushArg α)
  | other

/-- One step of one thread. A locked section is one step, the notification of a push or of
`close` is a later one, and any sleeper may wake without one. -/
inductive PoolStep (prog : WorkerProgram α β ω) (external : Prop) :
    PoolState n α β ω → Event α → PoolState n α β ω → Prop
  | pullFront {s} (i : Fin n) (h : s.workers i = .outside) :
      PoolStep prog external s .other ((s.enterPull i).resumePull prog i)
  | reacquire {s} (i : Fin n) (h : s.workers i = .woken) :
      PoolStep prog external s .other (s.resumePull prog i)
  | spurious {s} (i : Fin n) (h : s.workers i = .asleep) :
      PoolStep prog external s .other (s.setWorker i .woken)
  | push {s} (i : Fin n) {b : β} {arg : PushArg α} {next : β} (h : s.workers i = .processing b)
      (ha : prog.act b s.world (.push arg next)) :
      PoolStep prog external s (.push arg) (s.pushBack i arg next)
  | notify {s} (i : Fin n) {b : β} {k : Notify} {w : Fin n → WorkerPc β}
      (h : s.workers i = .notifying k b) (hw : Notified k (update s.workers i (.processing b)) w) :
      PoolStep prog external s .other { s with workers := w }
  | work {s} (i : Fin n) {b next : β} {world : ω} (h : s.workers i = .processing b)
      (ha : prog.act b s.world (.work next world)) :
      PoolStep prog external s .other { s.setWorker i (.processing next) with world := world }
  | finish {s} (i : Fin n) {b : β} (h : s.workers i = .processing b)
      (ha : prog.act b s.world .finish) :
      PoolStep prog external s .other (s.setWorker i .outside)
  | masterWait {s} (h : s.master = .start) :
      PoolStep prog external s .other s.enterWait.resumeWait
  | masterReacquire {s} (h : s.master = .woken) : PoolStep prog external s .other s.resumeWait
  | masterSpurious {s} (h : s.master = .asleep) :
      PoolStep prog external s .other { s with master := .woken }
  | close {s} {status : QueueOpStatus} (h : s.master = .returned status) :
      PoolStep prog external s .other { s with queue := s.queue.close, master := .closing }
  | closeNotify {s} (h : s.master = .closing) :
      PoolStep prog external s .other
        { s with workers := fun i => (s.workers i).wake, master := .joining }
  | join {s} (h : s.master = .joining) (hexit : ∀ i, s.workers i = .exited) :
      PoolStep prog external s .other { s with master := .joined }
  | externalPush {s} (hext : external) (arg : PushArg α) :
      PoolStep prog external s (.push arg) (s.externalPush arg)
  | externalNotify {s} {k : Notify} {w : Fin n → WorkerPc β} (h : 0 < s.pending k)
      (hw : Notified k s.workers w) :
      PoolStep prog external s .other
        { s with workers := w, pending := update s.pending k (s.pending k - 1) }

/-- The workers have not started, and the queue may hold anything. -/
def PoolInit (n : Nat) (queue : List α) (world : ω) (s : PoolState n α β ω) : Prop :=
  s = ⟨{ underlyingQueue := queue }, fun _ => .outside, .start, fun _ => 0, world⟩

section Lemmas

variable {s : PoolState n α β ω} {w w' : Fin n → WorkerPc β} {k : Notify}

/-- A notification or a spurious wakeup changes sleepers only, and only to woken. -/
def WakesSome (w w' : Fin n → WorkerPc β) : Prop :=
  ∀ i, w' i = w i ∨ w i = .asleep ∧ w' i = .woken

theorem wakesSome_wake (w : Fin n → WorkerPc β) : WakesSome w fun i => (w i).wake := by
  intro i
  dsimp only
  cases w i with
  | asleep => exact Or.inr ⟨rfl, rfl⟩
  | _ => exact Or.inl rfl

theorem wakesSome_update {i : Fin n} (h : w i = .asleep) : WakesSome w (update w i .woken) := by
  intro j
  by_cases hj : j = i
  · subst hj
    exact Or.inr ⟨h, update_self ..⟩
  · exact Or.inl (update_of_ne hj _ _)

theorem Notified.wakesSome (h : Notified k w w') : WakesSome w w' := by
  cases h with
  | all => exact wakesSome_wake w
  | one i hi => exact wakesSome_update hi
  | none => exact fun i => Or.inl rfl

theorem WakesSome.sum_waiting (h : WakesSome w w') :
    ∑ i, (w' i).waiting = ∑ i, (w i).waiting := by
  refine Finset.sum_congr rfl fun i _ => ?_
  rcases h i with h | ⟨h, h'⟩
  · rw [h]
  · rw [h, h']
    rfl

theorem Notified.exists_woken (h : Notified k w w') {i : Fin n} (hi : w i = .asleep) :
    ∃ j, w' j = .woken := by
  cases h with
  | all => exact ⟨i, by simp only [hi, WorkerPc.wake]⟩
  | one j hj => exact ⟨j, update_self ..⟩
  | none h => exact (h i hi).elim

theorem WakesSome.asleep (h : WakesSome w w') {i : Fin n} (hi : w' i = .asleep) :
    w i = .asleep := by
  rcases h i with h | ⟨_, h⟩
  · rwa [h] at hi
  · rw [hi] at h
    simp at h

theorem resumePull_cases (prog : WorkerProgram α β ω) (s : PoolState n α β ω) (i : Fin n) :
    (s.queue.underlyingQueue = [] ∧ s.queue.closed = false ∧
      s.resumePull prog i = s.setWorker i .asleep) ∨
    (s.queue.underlyingQueue = [] ∧ s.queue.closed = true ∧
      s.resumePull prog i =
        { s with queue := { s.queue with numWaitingThreads := s.queue.numWaitingThreads - 1 },
                 workers := update s.workers i .exited }) ∨
    (∃ x xs, s.queue.underlyingQueue = x :: xs ∧
      s.resumePull prog i =
        { s with queue := { s.queue with underlyingQueue := xs,
                                         numWaitingThreads := s.queue.numWaitingThreads - 1 },
                 workers := update s.workers i (.processing (prog.load x)) }) := by
  unfold PoolState.resumePull SyncQueue.leavePull SyncQueue.canPull
  cases hq : s.queue.underlyingQueue with
  | nil =>
    cases hc : s.queue.closed with
    | false => exact Or.inl ⟨rfl, rfl, by simp⟩
    | true => exact Or.inr (Or.inl ⟨rfl, rfl, by simp [hq, hc]⟩)
  | cons x xs => exact Or.inr (Or.inr ⟨x, xs, rfl, by simp⟩)

theorem pushBack_cases (s : PoolState n α β ω) (i : Fin n) (arg : PushArg α) (next : β) :
    (s.queue.closed = true ∧ s.pushBack i arg next = s.setWorker i (.processing next)) ∨
    (s.queue.closed = false ∧ s.pushBack i arg next =
      { s with queue := { s.queue with underlyingQueue := s.queue.underlyingQueue ++ arg.values },
               workers := update s.workers i (.notifying arg.notify next) }) := by
  unfold PoolState.pushBack
  cases hc : s.queue.closed with
  | true =>
    left
    rw [SyncQueue.pushBack_of_closed hc]
    exact ⟨rfl, rfl⟩
  | false =>
    right
    rw [SyncQueue.pushBack_of_open hc]
    exact ⟨rfl, rfl⟩

theorem externalPush_cases (s : PoolState n α β ω) (arg : PushArg α) :
    (s.queue.closed = true ∧ s.externalPush arg = s) ∨
    (s.queue.closed = false ∧ s.externalPush arg =
      { s with queue := { s.queue with underlyingQueue := s.queue.underlyingQueue ++ arg.values },
               pending := update s.pending arg.notify (s.pending arg.notify + 1) }) := by
  unfold PoolState.externalPush
  cases hc : s.queue.closed with
  | true =>
    left
    rw [SyncQueue.pushBack_of_closed hc]
    exact ⟨rfl, rfl⟩
  | false =>
    right
    rw [SyncQueue.pushBack_of_open hc]
    exact ⟨rfl, rfl⟩

theorem resumePull_master (prog : WorkerProgram α β ω) (s : PoolState n α β ω) (i : Fin n) :
    (s.resumePull prog i).master = s.master := by
  rcases resumePull_cases prog s i with ⟨_, _, he⟩ | ⟨_, _, he⟩ | ⟨_, _, _, he⟩
  · rw [he, PoolState.setWorker]
  · rw [he]
  · rw [he]

theorem pushBack_master (s : PoolState n α β ω) (i : Fin n) (arg : PushArg α) (next : β) :
    (s.pushBack i arg next).master = s.master := by
  rcases pushBack_cases s i arg next with ⟨_, he⟩ | ⟨_, he⟩
  · rw [he, PoolState.setWorker]
  · rw [he]

theorem enterPull_master (s : PoolState n α β ω) (i : Fin n) :
    (s.enterPull i).master = s.master ∨ (s.enterPull i).master = s.master.wake := by
  unfold PoolState.enterPull
  split
  · exact Or.inr rfl
  · exact Or.inl rfl

theorem resumeWait_cases (s : PoolState n α β ω) :
    (s.queue.isComplete = true ∧
      s.resumeWait = { s with master := .returned s.queue.completionStatus }) ∨
    (s.queue.isComplete = false ∧ s.resumeWait = { s with master := .asleep }) := by
  unfold PoolState.resumeWait
  cases s.queue.isComplete with
  | true => exact Or.inl ⟨rfl, if_pos rfl⟩
  | false => exact Or.inr ⟨rfl, if_neg (by simp)⟩

end Lemmas

end Ucg
