import Mathlib.Tactic.Common

/-! `sync_queue`, one definition for the work that each member function does under the lock. -/

namespace Ucg

inductive QueueOpStatus
  | success
  | closed
  deriving DecidableEq, Repr

/-- The notification that a push makes after it has unlocked the mutex. -/
inductive Notify
  | one
  | all
  deriving DecidableEq, Repr

/-- The argument of the overloads of `push_back`. -/
inductive PushArg (α : Type*)
  | value (x : α)
  | container (xs : List α)

/-- The members under the mutex. The counter is an integer, so that it could fall below zero. -/
structure SyncQueue (α : Type*) where
  underlyingQueue : List α := []
  numWaitingThreadsNotificationLevel : Int := 500
  numWaitingThreads : Int := 0
  closed : Bool := false

variable {α : Type*}

def PushArg.values : PushArg α → List α
  | .value x => [x]
  | .container xs => xs

def PushArg.notify : PushArg α → Notify
  | .value _ => .one
  | .container _ => .all

namespace SyncQueue

def pushBack (q : SyncQueue α) (arg : PushArg α) : SyncQueue α × QueueOpStatus :=
  if q.closed then (q, .closed)
  else ({ q with underlyingQueue := q.underlyingQueue ++ arg.values }, .success)

def close (q : SyncQueue α) : SyncQueue α := { q with closed := true }

/-- The entry to `pull_front`, and whether it notifies `m_cv_complete`. -/
def enterPull (q : SyncQueue α) : SyncQueue α × Bool :=
  let q := { q with numWaitingThreads := q.numWaitingThreads + 1 }
  (q, q.numWaitingThreads == q.numWaitingThreadsNotificationLevel)

/-- The predicate of the wait on `m_cv`. -/
def canPull (q : SyncQueue α) : Bool := !q.underlyingQueue.isEmpty || q.closed

/-- The rest of `pull_front` behind the wait. `none` is the status `closed`. -/
def leavePull (q : SyncQueue α) : SyncQueue α × Option α :=
  let q := { q with numWaitingThreads := q.numWaitingThreads - 1 }
  match q.underlyingQueue with
  | [] => (q, none)
  | x :: xs => ({ q with underlyingQueue := xs }, some x)

def setLevel (q : SyncQueue α) (numWorkers : Nat) : SyncQueue α :=
  if 0 < numWorkers then { q with numWaitingThreadsNotificationLevel := numWorkers } else q

/-- The predicate of the wait on `m_cv_complete`. -/
def isComplete (q : SyncQueue α) : Bool :=
  (q.numWaitingThreads == q.numWaitingThreadsNotificationLevel && q.underlyingQueue.isEmpty) ||
    q.closed

def completionStatus (q : SyncQueue α) : QueueOpStatus := if q.closed then .closed else .success

variable {q : SyncQueue α} {arg : PushArg α}

theorem pushBack_of_closed (h : q.closed = true) : q.pushBack arg = (q, .closed) := by
  rw [pushBack, if_pos h]

theorem pushBack_of_open (h : q.closed = false) :
    q.pushBack arg =
      ({ q with underlyingQueue := q.underlyingQueue ++ arg.values }, .success) := by
  rw [pushBack, if_neg (by simp [h])]

theorem isComplete_iff : q.isComplete = true ↔
    (q.numWaitingThreads = q.numWaitingThreadsNotificationLevel ∧ q.underlyingQueue = []) ∨
      q.closed = true := by
  simp [isComplete]

end SyncQueue

end Ucg
