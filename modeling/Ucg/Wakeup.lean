import Ucg.Completion

/-! No lost wakeup: for every sleeper whose predicate holds there is a thread or a
notification still to come, with threads outside that push at any time. -/

namespace Ucg

open Transition Function

/-- A worker that comes to the predicate in `pull_front` before it sleeps again. -/
def WorkerPc.OnItsWay {β : Type*} : WorkerPc β → Prop
  | .outside | .woken | .processing _ | .notifying _ _ => True
  | _ => False

variable {n : Nat} {α β ω : Type*}

/-- Somebody will look at the queue: a worker on its way, or a sleeper that a thread outside
or the close is yet to notify. -/
def Attended (s : PoolState n α β ω) : Prop :=
  (∃ j, (s.workers j).OnItsWay) ∨ (∃ k, 0 < s.pending k) ∨ s.master = .closing

def ItemsAttended (s : PoolState n α β ω) : Prop :=
  ∀ i, s.workers i = .asleep → s.queue.underlyingQueue ≠ [] → Attended s

def CloseAttended (s : PoolState n α β ω) : Prop :=
  ∀ i, s.workers i = .asleep → s.queue.closed = true → s.master = .closing

def MasterAttended (s : PoolState n α β ω) : Prop :=
  s.master = .asleep → s.queue.isComplete = false

section Steps

variable {prog : WorkerProgram α β ω} {external : Prop} {s s' : PoolState n α β ω} {i : Fin n}

theorem MasterPc.wake_eq_closing {m : MasterPc} : m.wake = .closing ↔ m = .closing := by
  cases m <;> simp [wake]

theorem MasterPc.wake_ne_asleep (m : MasterPc) : m.wake ≠ .asleep := by
  cases m <;> simp [wake]

theorem WorkerPc.wake_ne_asleep (pc : WorkerPc β) : pc.wake ≠ .asleep := by
  cases pc <;> simp [wake]

namespace ItemsAttended

theorem of_onItsWay {pc : WorkerPc β} (h : s.workers i = pc) (hpc : pc.OnItsWay) : ItemsAttended s :=
  fun _ _ _ => Or.inl ⟨i, h ▸ hpc⟩

theorem resumePull : ItemsAttended (s.resumePull prog i) := by
  rcases resumePull_cases prog s i with ⟨hq, _, he⟩ | ⟨hq, _, he⟩ | ⟨x, xs, _, he⟩ <;> rw [he]
  · exact fun _ _ hne => absurd hq hne
  · exact fun _ _ hne => absurd hq hne
  · exact of_onItsWay (update_self i _ _) trivial

theorem pushBack {arg : PushArg α} {next : β} : ItemsAttended (s.pushBack i arg next) := by
  rcases pushBack_cases s i arg next with ⟨_, he⟩ | ⟨_, he⟩ <;> rw [he] <;>
    exact of_onItsWay (update_self i _ _) trivial

theorem master (h : ItemsAttended s) (hm : s.master ≠ .closing) (q : SyncQueue α)
    (hq : q.underlyingQueue = s.queue.underlyingQueue) (m : MasterPc) :
    ItemsAttended { s with queue := q, master := m } := by
  intro i hi hne
  rw [hq] at hne
  exact (h i hi hne).imp_right fun h => Or.inl (h.resolve_right hm)

theorem resumeWait (h : ItemsAttended s) (hm : s.master ≠ .closing) : ItemsAttended s.resumeWait := by
  rcases resumeWait_cases s with ⟨_, he⟩ | ⟨_, he⟩ <;> rw [he] <;> exact h.master hm _ rfl _

theorem enterWait (h : ItemsAttended s) (hm : s.master ≠ .closing) : ItemsAttended s.enterWait := by
  refine h.master hm _ ?_ _
  unfold SyncQueue.setLevel
  split <;> rfl

theorem init {queue : List α} {world : ω} (h : PoolInit n queue world s) : ItemsAttended s := by
  subst h
  exact fun i _ _ => Or.inl ⟨i, trivial⟩

theorem step {e : Event α} (h : ItemsAttended s) (hs : PoolStep prog external s e s') :
    ItemsAttended s' := by
  cases hs with
  | pullFront i _ => exact resumePull
  | reacquire i _ => exact resumePull
  | spurious i _ => exact of_onItsWay (update_self i _ _) trivial
  | push i _ _ => exact pushBack
  | @notify i b _ w _ hw =>
    -- the notifying worker itself is on its way
    rcases hw.wakesSome i with hi | ⟨hi, _⟩
    · exact of_onItsWay (hi.trans (update_self i _ _)) trivial
    · rw [update_self] at hi
      cases hi
  | work i _ _ => exact of_onItsWay (update_self i _ _) trivial
  | finish i _ _ => exact of_onItsWay (update_self i _ _) trivial
  | masterWait hm => exact (h.enterWait (by simp [hm])).resumeWait nofun
  | masterReacquire hm => exact h.resumeWait (by simp [hm])
  | masterSpurious hm => exact h.master (by simp [hm]) _ rfl _
  | close _ => exact fun _ _ _ => Or.inr (Or.inr rfl)
  | closeNotify _ => exact fun i hi => absurd hi (WorkerPc.wake_ne_asleep _)
  | join hm hexit => exact h.master (by simp [hm]) _ rfl _
  | externalPush _ arg =>
    rcases externalPush_cases s arg with ⟨_, he⟩ | ⟨_, he⟩ <;> rw [he]
    · exact h
    · exact fun _ _ _ => Or.inr (Or.inl ⟨arg.notify, by simp⟩)
  | externalNotify _ hw =>
    intro i hi _
    obtain ⟨j, hj⟩ := hw.exists_woken (hw.wakesSome.asleep hi)
    exact Or.inl ⟨j, by simp [hj, WorkerPc.OnItsWay]⟩

theorem reachable {queue : List α} {world : ω}
    (h : Reachable (PoolInit n queue world) (PoolStep prog external) s) : ItemsAttended s :=
  Reachable.invariant (I := ItemsAttended) (fun _ => init) (fun _ _ _ _ => step) h

end ItemsAttended

namespace CloseAttended

theorem move (h : CloseAttended s) {pc : WorkerPc β} (hworkers : s'.workers = update s.workers i pc)
    (hpc : pc = .asleep → s.queue.closed = false) (hmaster : s'.master = .closing ↔ s.master = .closing)
    (hclosed : s'.queue.closed = s.queue.closed) : CloseAttended s' := by
  intro j hj hc
  rw [hclosed] at hc
  rw [hworkers] at hj
  rw [hmaster]
  by_cases hji : j = i
  · subst hji
    rw [update_self] at hj
    rw [hpc hj] at hc
    simp at hc
  · rw [update_of_ne hji] at hj
    exact h j hj hc

theorem wakes (h : CloseAttended s) (hworkers : WakesSome s.workers s'.workers)
    (hmaster : s'.master = s.master) (hqueue : s'.queue = s.queue) : CloseAttended s' := by
  intro j hj hc
  rw [hqueue] at hc
  rw [hmaster]
  exact h j (hworkers.asleep hj) hc

theorem of_open (h : s.queue.closed = false) : CloseAttended s := fun _ _ hc => by simp [h] at hc

theorem enterPull (h : CloseAttended s) : CloseAttended (s.enterPull i) := by
  refine h.move rfl nofun ?_ rfl
  rcases enterPull_master s i with hm | hm <;> rw [hm]
  exact MasterPc.wake_eq_closing

theorem resumePull (h : CloseAttended s) : CloseAttended (s.resumePull prog i) := by
  rcases resumePull_cases prog s i with ⟨_, hc, he⟩ | ⟨_, _, he⟩ | ⟨x, xs, _, he⟩ <;> rw [he]
  · exact h.move rfl (fun _ => hc) Iff.rfl rfl
  · exact h.move rfl nofun Iff.rfl rfl
  · exact h.move rfl nofun Iff.rfl rfl

theorem step {e : Event α} (h : CloseAttended s) (hc : Counted s)
    (hs : PoolStep prog external s e s') : CloseAttended s' := by
  have hopen (hm : ¬s.master.HasClosed) : s.queue.closed = false := by
    rwa [← Bool.not_eq_true, hc.closed_iff]
  have hresume (t : PoolState n α β ω) (ht : t.queue.closed = false) : CloseAttended t.resumeWait := by
    rcases resumeWait_cases t with ⟨_, he⟩ | ⟨_, he⟩ <;> rw [he] <;> exact of_open ht
  cases hs with
  | pullFront i _ => exact h.enterPull.resumePull
  | reacquire i _ => exact h.resumePull
  | spurious i _ => exact h.move rfl nofun Iff.rfl rfl
  | @push i _ arg next _ _ =>
    rcases pushBack_cases s i arg next with ⟨_, he⟩ | ⟨_, he⟩ <;> rw [he] <;>
      exact h.move rfl nofun Iff.rfl rfl
  | @notify i b _ w _ hw =>
    have hmove : CloseAttended (s.setWorker i (.processing b)) := h.move rfl nofun Iff.rfl rfl
    exact hmove.wakes hw.wakesSome rfl rfl
  | work i _ _ => exact h.move rfl nofun Iff.rfl rfl
  | finish i _ _ => exact h.move rfl nofun Iff.rfl rfl
  | masterWait hm =>
    refine hresume _ ?_
    have hopen' := hopen (by simp [hm, MasterPc.HasClosed])
    unfold PoolState.enterWait SyncQueue.setLevel
    split <;> exact hopen'
  | masterReacquire hm => exact hresume s (hopen (by simp [hm, MasterPc.HasClosed]))
  | masterSpurious hm => exact of_open (hopen (by simp [hm, MasterPc.HasClosed]))
  | close _ => exact fun _ _ _ => rfl
  | closeNotify _ => exact fun i hi => absurd hi (WorkerPc.wake_ne_asleep _)
  | join _ hexit => exact fun i hi => by simp [hexit i] at hi
  | externalPush _ arg =>
    rcases externalPush_cases s arg with ⟨_, he⟩ | ⟨ho, he⟩ <;> rw [he]
    · exact h
    · exact of_open ho
  | externalNotify _ hw => exact h.wakes hw.wakesSome rfl rfl

theorem reachable {queue : List α} {world : ω}
    (h : Reachable (PoolInit n queue world) (PoolStep prog external) s) : CloseAttended s := by
  refine Reachable.invariant (I := CloseAttended) (fun t ht => ?_)
    (fun t e u hreach ht hstep => ht.step (Counted.reachable hreach) hstep) h
  subst ht
  exact of_open rfl

end CloseAttended

namespace MasterAttended

theorem isComplete_push {q : SyncQueue α} (h : q.isComplete = false) (xs : List α) :
    SyncQueue.isComplete { q with underlyingQueue := q.underlyingQueue ++ xs } = false := by
  rw [← Bool.not_eq_true, SyncQueue.isComplete_iff] at h ⊢
  rintro (⟨hcount, hq⟩ | hclosed)
  · exact h (Or.inl ⟨hcount, (List.append_eq_nil_iff.mp hq).1⟩)
  · exact h (Or.inr hclosed)

theorem enterPull (hc : Counted s) : MasterAttended (s.enterPull i) := by
  intro hm
  unfold PoolState.enterPull SyncQueue.enterPull at hm ⊢
  split at hm
  · exact absurd hm s.master.wake_ne_asleep
  · rename_i hlevel
    have hopen : s.queue.closed = false := by
      rw [← Bool.not_eq_true, hc.closed_iff]
      dsimp only at hm
      rw [hm]
      exact id
    simp_all [SyncQueue.isComplete]

theorem resumePull (h : MasterAttended s) (hc : Counted s) (hi : s.workers i = .woken) :
    MasterAttended (s.resumePull prog i) := by
  have hc' : Counted (s.resumePull prog i) := hc.resumePull hi
  rcases resumePull_cases prog s i with ⟨_, _, he⟩ | ⟨_, hclosed, he⟩ | ⟨x, xs, _, he⟩ <;>
    rw [he] at hc' ⊢ <;> intro hm
  · exact h hm
  · have hm : s.master = .asleep := hm
    rw [hc.closed_iff, hm] at hclosed
    exact hclosed.elim
  · have hm : s.master = .asleep := hm
    have hn : 0 < n := Nat.zero_lt_of_lt i.isLt
    rw [← Bool.not_eq_true,
      hc'.isComplete_iff (by simp [hm]) hn (by simp [hm, MasterPc.HasClosed])]
    rintro ⟨hall, _⟩
    simpa [WorkerPc.waiting] using hall i

theorem resumeWait : MasterAttended s.resumeWait := by
  rcases resumeWait_cases s with ⟨_, he⟩ | ⟨hincomplete, he⟩ <;> rw [he]
  · exact nofun
  · exact fun _ => hincomplete

theorem step {e : Event α} (h : MasterAttended s) (hc : Counted s)
    (hs : PoolStep prog external s e s') : MasterAttended s' := by
  cases hs with
  | pullFront i hi => exact (enterPull hc).resumePull (hc.enterPull hi) (update_self ..)
  | reacquire i hi => exact h.resumePull hc hi
  | @push i _ arg next _ _ =>
    rcases pushBack_cases s i arg next with ⟨_, he⟩ | ⟨_, he⟩ <;> rw [he]
    · exact h
    · exact fun hm => isComplete_push (h hm) _
  | masterWait _ => exact resumeWait
  | masterReacquire _ => exact resumeWait
  | externalPush _ arg =>
    rcases externalPush_cases s arg with ⟨_, he⟩ | ⟨_, he⟩ <;> rw [he]
    · exact h
    · exact fun hm => isComplete_push (h hm) _
  | masterSpurious _ => exact nofun
  | close _ => exact nofun
  | closeNotify _ => exact nofun
  | join _ _ => exact nofun
  | _ => exact h

theorem reachable {queue : List α} {world : ω}
    (h : Reachable (PoolInit n queue world) (PoolStep prog external) s) : MasterAttended s := by
  refine Reachable.invariant (I := MasterAttended) (fun t ht => ?_)
    (fun t e u hreach ht hstep => ht.step (Counted.reachable hreach) hstep) h
  subst ht
  exact nofun

end MasterAttended

end Steps

section Wakeup

variable {prog : WorkerProgram α β ω} {external : Prop} {queue : List α} {world : ω}
  {s : PoolState n α β ω}

/-- In no reachable state does a thread sleep for good although its predicate holds: the
queue is attended for the workers, and the master's predicate is false while it sleeps.
Without workers the level stays at its default, and there the predicate never holds. -/
theorem noLostWakeup (h : Reachable (PoolInit n queue world) (PoolStep prog external) s) :
    (∀ i, s.workers i = .asleep → s.queue.underlyingQueue ≠ [] → Attended s) ∧
      (∀ i, s.workers i = .asleep → s.queue.closed = true → s.master = .closing) ∧
      (s.master = .asleep → s.queue.isComplete = false ∧
        ¬(0 < n ∧ (∀ i, (s.workers i).waiting = 1) ∧ s.queue.underlyingQueue = [])) := by
  have hmaster := MasterAttended.reachable h
  refine ⟨ItemsAttended.reachable h, CloseAttended.reachable h,
    fun hm => ⟨hmaster hm, fun ⟨hn, hall⟩ => ?_⟩⟩
  have hcomplete := ((Counted.reachable h).isComplete_iff (by simp [hm]) hn
    (by simp [hm, MasterPc.HasClosed])).mpr hall
  rw [hmaster hm] at hcomplete
  simp at hcomplete

theorem noLostWakeup_externalPush :
    ∃ s, Reachable (PoolInit 2 [] ()) (PoolStep countdown True) s ∧
      s.workers 0 = .asleep ∧ s.queue.underlyingQueue = [5] ∧ Attended s ∧
      s.master = .asleep ∧ s.queue.isComplete = false := by
  have hstart : Reachable (PoolInit 2 [] ()) (PoolStep countdown True) _ := .start rfl
  have hasleep := (hstart.tail (.pullFront 0 rfl)).tail (.masterWait rfl)
  have hpushed := hasleep.tail (.externalPush trivial (.value 5))
  obtain ⟨hitems, _, hmaster⟩ := noLostWakeup hpushed
  exact ⟨_, hpushed, rfl, rfl, hitems 0 rfl (List.cons_ne_nil 5 []), rfl, (hmaster rfl).1⟩

end Wakeup

end Ucg
