import Ucg.Lib.Fifo
import Ucg.SyncQueue

/-! Any threads that call the member functions of one `sync_queue` at any time, and the abstract
queue that their locked sections simulate. -/

namespace Ucg

open Transition Function

/-- Where a thread stands: in no call, asleep on `m_cv` in `pull_front` or woken there without
the lock, behind the unlock of a push or of `close`, asleep on `m_cv_complete` in
`wait_for_worker_completion` or woken there without the lock. -/
inductive ClientPc
  | idle
  | pullAsleep
  | pullWoken
  | notifying (k : Notify)
  | closing
  | waitAsleep
  | waitWoken
  deriving DecidableEq, Repr

def ClientPc.wakePuller : ClientPc → ClientPc
  | .pullAsleep => .pullWoken
  | pc => pc

def ClientPc.wakeWaiter : ClientPc → ClientPc
  | .waitAsleep => .waitWoken
  | pc => pc

structure ClientState (ι α : Type*) where
  queue : SyncQueue α
  threads : ι → ClientPc

/-- What a step returns: a push its status, `pull_front` a value or the status `closed`,
`wait_for_worker_completion` its status. The locked section of `close` and its return are two. -/
inductive ClientEvent (α : Type*)
  | push (arg : PushArg α) (status : QueueOpStatus)
  | pull (result : Option α)
  | close
  | closeReturned
  | waited (status : QueueOpStatus)
  | internal

variable {ι α : Type*}

/-- The sleepers that a notification of `m_cv` wakes: all, or one if there is one. -/
inductive PullersNotified [DecidableEq ι] : Notify → (ι → ClientPc) → (ι → ClientPc) → Prop
  | all (w : ι → ClientPc) : PullersNotified .all w fun i => (w i).wakePuller
  | one {w : ι → ClientPc} (i : ι) (h : w i = .pullAsleep) :
    PullersNotified .one w (update w i .pullWoken)
  | none {w : ι → ClientPc} (h : ∀ i, w i ≠ .pullAsleep) : PullersNotified .one w w

namespace ClientState

variable [DecidableEq ι]

def setThread (s : ClientState ι α) (i : ι) (pc : ClientPc) : ClientState ι α :=
  { s with threads := update s.threads i pc }

def wakeWaiters (s : ClientState ι α) : ClientState ι α :=
  { s with threads := fun i => (s.threads i).wakeWaiter }

def pushBack (s : ClientState ι α) (i : ι) (arg : PushArg α) : ClientEvent α × ClientState ι α :=
  match s.queue.pushBack arg with
  | (q, .success) =>
    (.push arg .success, { queue := q, threads := update s.threads i (.notifying arg.notify) })
  | (q, .closed) => (.push arg .closed, { s with queue := q })

/-- The entry to `pull_front`, up to the wait. -/
def enterPull (s : ClientState ι α) : ClientState ι α :=
  let s' := { s with queue := s.queue.enterPull.1 }
  if s.queue.enterPull.2 then s'.wakeWaiters else s'

/-- Thread `i` has the lock at the predicate of the wait in `pull_front`. -/
def resumePull (s : ClientState ι α) (i : ι) : ClientEvent α × ClientState ι α :=
  if s.queue.canPull then
    (.pull s.queue.leavePull.2,
      { queue := s.queue.leavePull.1, threads := update s.threads i .idle })
  else (.internal, s.setThread i .pullAsleep)

/-- The entry to `wait_for_worker_completion`, up to the wait. -/
def enterWait (s : ClientState ι α) (numWorkers : Nat) : ClientState ι α :=
  { s with queue := s.queue.setLevel numWorkers }.wakeWaiters

def resumeWait (s : ClientState ι α) (i : ι) : ClientEvent α × ClientState ι α :=
  if s.queue.isComplete then (.waited s.queue.completionStatus, s.setThread i .idle)
  else (.internal, s.setThread i .waitAsleep)

end ClientState

open ClientState in
/-- One step of one thread. A locked section is one step, the notification of a push or of
`close` is a later one, and any sleeper may wake without one. -/
inductive ClientStep [DecidableEq ι] : ClientState ι α → ClientEvent α → ClientState ι α → Prop
  | push {s} (i : ι) (arg : PushArg α) (h : s.threads i = .idle) :
    ClientStep s (s.pushBack i arg).1 (s.pushBack i arg).2
  | notify {s} (i : ι) {k : Notify} {w : ι → ClientPc} (h : s.threads i = .notifying k)
      (hw : PullersNotified k (update s.threads i .idle) w) :
    ClientStep s .internal { s with threads := w }
  | pullFront {s} (i : ι) (h : s.threads i = .idle) :
    ClientStep s (s.enterPull.resumePull i).1 (s.enterPull.resumePull i).2
  | pullReacquire {s} (i : ι) (h : s.threads i = .pullWoken) :
    ClientStep s (s.resumePull i).1 (s.resumePull i).2
  | pullSpurious {s} (i : ι) (h : s.threads i = .pullAsleep) :
    ClientStep s .internal (s.setThread i .pullWoken)
  | close {s} (i : ι) (h : s.threads i = .idle) :
    ClientStep s .close { queue := s.queue.close, threads := update s.threads i .closing }
  | closeNotify {s} (i : ι) (h : s.threads i = .closing) :
    ClientStep s .closeReturned
      { s with threads := fun j => (update s.threads i .idle j).wakePuller }
  | wait {s} (i : ι) (numWorkers : Nat) (h : s.threads i = .idle) :
    ClientStep s ((s.enterWait numWorkers).resumeWait i).1 ((s.enterWait numWorkers).resumeWait i).2
  | waitReacquire {s} (i : ι) (h : s.threads i = .waitWoken) :
    ClientStep s (s.resumeWait i).1 (s.resumeWait i).2
  | waitSpurious {s} (i : ι) (h : s.threads i = .waitAsleep) :
    ClientStep s .internal (s.setThread i .waitWoken)

def ClientInit (s : ClientState ι α) : Prop := s = ⟨{}, fun _ => .idle⟩

def ClientEvent.pulled : ClientEvent α → List α
  | .pull (some x) => [x]
  | _ => []

def ClientEvent.pushed : ClientEvent α → List α
  | .push arg .success => arg.values
  | _ => []

def pulled (l : List (ClientEvent α)) : List α := l.flatMap ClientEvent.pulled

def pushed (l : List (ClientEvent α)) : List α := l.flatMap ClientEvent.pushed

/-- The operation of the abstract queue that a step stands for. -/
def ClientEvent.op : ClientEvent α → Option (Fifo.Op α)
  | .push arg .success => some (.accept arg.values)
  | .push arg .closed => some (.refuse arg.values)
  | .pull (some x) => some (.deliver x)
  | .pull none => some .finish
  | .close => some .close
  | _ => none

def SyncQueue.abstract (q : SyncQueue α) : Fifo.Queue α := ⟨q.underlyingQueue, q.closed⟩

theorem flatMap_ops {f : Fifo.Op α → List α} {g : ClientEvent α → List α}
    (h : ∀ e, e.op.elim [] f = g e) (l : List (ClientEvent α)) :
    (l.filterMap ClientEvent.op).flatMap f = l.flatMap g := by
  induction l with
  | nil => rfl
  | cons e l ih =>
    rw [List.filterMap_cons, List.flatMap_cons, ← h e]
    cases e.op with
    | none => exact ih
    | some op => rw [List.flatMap_cons, ih, Option.elim_some]

theorem delivered_ops (l : List (ClientEvent α)) :
    Fifo.delivered (l.filterMap ClientEvent.op) = pulled l := by
  refine flatMap_ops (fun e => ?_) l
  rcases e with ⟨arg, _ | _⟩ | ⟨_ | x⟩ | _ | _ | _ | _ <;> rfl

theorem accepted_ops (l : List (ClientEvent α)) :
    Fifo.accepted (l.filterMap ClientEvent.op) = pushed l := by
  refine flatMap_ops (fun e => ?_) l
  rcases e with ⟨arg, _ | _⟩ | ⟨_ | x⟩ | _ | _ | _ | _ <;> rfl

theorem abstract_enterPull (s : ClientState ι α) :
    s.enterPull.queue.abstract = s.queue.abstract := by
  rw [ClientState.enterPull]
  split <;> rfl

theorem abstract_enterWait (s : ClientState ι α) (numWorkers : Nat) :
    (s.enterWait numWorkers).queue.abstract = s.queue.abstract := by
  simp only [ClientState.enterWait, ClientState.wakeWaiters, SyncQueue.setLevel]
  split <;> rfl

section Steps

variable [DecidableEq ι] {s t : ClientState ι α} {e : ClientEvent α}

/-- What a locked section is for the abstract queue: its operation, or no change. -/
def Simulates (q : SyncQueue α) (e : ClientEvent α) (r : SyncQueue α) : Prop :=
  (∃ op, e.op = some op ∧ Fifo.Step q.abstract op r.abstract) ∨
    e.op = none ∧ r.abstract = q.abstract

theorem simulates_pushBack (s : ClientState ι α) (i : ι) (arg : PushArg α) :
    Simulates s.queue (s.pushBack i arg).1 (s.pushBack i arg).2.queue := by
  cases hclosed : s.queue.closed with
  | true =>
    rw [ClientState.pushBack, SyncQueue.pushBack_of_closed hclosed]
    exact Or.inl ⟨_, rfl, .refuse arg.values hclosed⟩
  | false =>
    rw [ClientState.pushBack, SyncQueue.pushBack_of_open hclosed]
    exact Or.inl ⟨_, rfl, .accept arg.values hclosed⟩

theorem simulates_resumePull (s : ClientState ι α) (i : ι) :
    Simulates s.queue (s.resumePull i).1 (s.resumePull i).2.queue := by
  by_cases hcan : s.queue.canPull = true
  · rw [ClientState.resumePull, if_pos hcan]
    cases hqueue : s.queue.underlyingQueue with
    | nil =>
      have hclosed : s.queue.closed = true := by simpa [SyncQueue.canPull, hqueue] using hcan
      have hleave : s.queue.leavePull.2 = none ∧ s.queue.leavePull.1.abstract = s.queue.abstract := by
        simp [SyncQueue.leavePull, SyncQueue.abstract, hqueue]
      refine Or.inl ⟨.finish, by rw [hleave.1]; rfl, ?_⟩
      rw [hleave.2]
      exact .finish hqueue hclosed
    | cons x rest =>
      have hleave : s.queue.leavePull.2 = some x ∧
          s.queue.leavePull.1.abstract = ⟨rest, s.queue.closed⟩ := by
        simp [SyncQueue.leavePull, SyncQueue.abstract, hqueue]
      refine Or.inl ⟨.deliver x, by rw [hleave.1]; rfl, ?_⟩
      rw [hleave.2]
      exact .deliver hqueue
  · rw [ClientState.resumePull, if_neg hcan]
    exact Or.inr ⟨rfl, rfl⟩

theorem simulates_resumeWait (s : ClientState ι α) (i : ι) :
    Simulates s.queue (s.resumeWait i).1 (s.resumeWait i).2.queue := by
  rw [ClientState.resumeWait]
  split <;> exact Or.inr ⟨rfl, rfl⟩

theorem ClientStep.simulates (h : ClientStep s e t) : Simulates s.queue e t.queue := by
  cases h with
  | push i arg => exact simulates_pushBack s i arg
  | pullFront i =>
    have hresume := simulates_resumePull s.enterPull i
    rwa [Simulates, abstract_enterPull] at hresume
  | pullReacquire i => exact simulates_resumePull s i
  | close => exact Or.inl ⟨.close, rfl, .close _⟩
  | wait i numWorkers =>
    have hresume := simulates_resumeWait (s.enterWait numWorkers) i
    rwa [Simulates, abstract_enterWait] at hresume
  | waitReacquire i => exact simulates_resumeWait s i
  | notify => exact Or.inr ⟨rfl, rfl⟩
  | pullSpurious => exact Or.inr ⟨rfl, rfl⟩
  | closeNotify => exact Or.inr ⟨rfl, rfl⟩
  | waitSpurious => exact Or.inr ⟨rfl, rfl⟩

/-- Neither a push nor a part of a `close`. -/
def ClientEvent.Inner (e : ClientEvent α) : Prop :=
  (∀ arg status, e ≠ .push arg status) ∧ e ≠ .close ∧ e ≠ .closeReturned

theorem inner_resumePull (s : ClientState ι α) (i : ι) : (s.resumePull i).1.Inner := by
  rw [ClientState.resumePull]
  split <;> simp [ClientEvent.Inner]

theorem inner_resumeWait (s : ClientState ι α) (i : ι) : (s.resumeWait i).1.Inner := by
  rw [ClientState.resumeWait]
  split <;> simp [ClientEvent.Inner]

theorem ClientStep.inversion (h : ClientStep s e t) :
    (∃ i arg, e = (s.pushBack i arg).1 ∧ t = (s.pushBack i arg).2) ∨
      (∃ i, s.threads i = .idle ∧ e = .close ∧
        t = { queue := s.queue.close, threads := update s.threads i .closing }) ∨
      (∃ i, s.threads i = .closing ∧ e = .closeReturned ∧
        t = { s with threads := fun j => (update s.threads i .idle j).wakePuller }) ∨ e.Inner := by
  have hinternal : (ClientEvent.internal (α := α)).Inner := by simp [ClientEvent.Inner]
  cases h with
  | push i arg => exact Or.inl ⟨i, arg, rfl, rfl⟩
  | close i hi => exact Or.inr (Or.inl ⟨i, hi, rfl, rfl⟩)
  | closeNotify i hi => exact Or.inr (Or.inr (Or.inl ⟨i, hi, rfl, rfl⟩))
  | pullFront i => exact Or.inr (Or.inr (Or.inr (inner_resumePull s.enterPull i)))
  | pullReacquire i => exact Or.inr (Or.inr (Or.inr (inner_resumePull s i)))
  | wait i numWorkers => exact Or.inr (Or.inr (Or.inr (inner_resumeWait (s.enterWait numWorkers) i)))
  | waitReacquire i => exact Or.inr (Or.inr (Or.inr (inner_resumeWait s i)))
  | _ => exact Or.inr (Or.inr (Or.inr hinternal))

theorem pushBack_event (s : ClientState ι α) (i : ι) (arg : PushArg α) :
    ∃ status, (s.pushBack i arg).1 = .push arg status := by
  rw [ClientState.pushBack]
  split <;> exact ⟨_, rfl⟩

theorem ClientStep.pushBack_closed {arg : PushArg α} {status : QueueOpStatus}
    (h : ClientStep s (.push arg status) t) (hclosed : s.queue.closed = true) :
    status = .closed ∧ t = s := by
  rcases h.inversion with ⟨i, arg', he, rfl⟩ | ⟨_, _, he, _⟩ | ⟨_, _, he, _⟩ | hinner
  · rw [ClientState.pushBack, SyncQueue.pushBack_of_closed hclosed] at he ⊢
    cases he
    exact ⟨rfl, rfl⟩
  · cases he
  · cases he
  · exact absurd rfl (hinner.1 arg status)

theorem ClientStep.of_close (h : ClientStep s .close t) :
    ∃ i, s.threads i = .idle ∧
      t = { queue := s.queue.close, threads := update s.threads i .closing } := by
  rcases h.inversion with ⟨i, arg, he, _⟩ | ⟨i, hi, _, rfl⟩ | ⟨_, _, he, _⟩ | hinner
  · obtain ⟨_, hpush⟩ := pushBack_event s i arg
    cases he.trans hpush
  · exact ⟨i, hi, rfl⟩
  · cases he
  · exact absurd rfl hinner.2.1

theorem ClientStep.of_closeReturned (h : ClientStep s .closeReturned t) :
    ∃ i, s.threads i = .closing ∧
      t = { s with threads := fun j => (update s.threads i .idle j).wakePuller } := by
  rcases h.inversion with ⟨i, arg, he, _⟩ | ⟨_, _, he, _⟩ | ⟨i, hi, _, rfl⟩ | hinner
  · obtain ⟨_, hpush⟩ := pushBack_event s i arg
    cases he.trans hpush
  · cases he
  · exact ⟨i, hi, rfl⟩
  · exact absurd rfl hinner.2.2

theorem ClientStep.pull_none (h : ClientStep s (.pull none) t) :
    s.queue.underlyingQueue = [] ∧ s.queue.closed = true := by
  rcases h.simulates with ⟨op, hop, hstep⟩ | ⟨hop, -⟩
  · obtain rfl : .finish = op := Option.some.inj hop
    exact hstep.of_finish
  · cases hop

end Steps

theorem clients_simulate_fifo [DecidableEq ι] {l : List (ClientEvent α)} {s : ClientState ι α}
    (h : Traced ClientInit ClientStep l s) :
    Traced Fifo.Init Fifo.Step (l.filterMap ClientEvent.op) s.queue.abstract := by
  refine h.simulation (fun s => s.queue.abstract) ?_ fun s e t _ hstep => hstep.simulates
  rintro s rfl
  exact ⟨rfl, rfl⟩

theorem op_eq_close {e : ClientEvent α} : e.op = some .close ↔ e = .close := by
  rcases e with ⟨arg, _ | _⟩ | ⟨_ | x⟩ | _ | _ | _ | _ <;> simp [ClientEvent.op]

end Ucg
