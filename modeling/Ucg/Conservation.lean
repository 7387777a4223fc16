import Ucg.Completion

/-! What the workers produce in all is what the first items owe, when each step keeps the
balance of the queue, the workers' hands and the output. -/

namespace Ucg

open Transition Function

variable {n : Nat} {α β ω M : Type*}

def WorkerPc.heldSum [Zero M] (held : β → M) : WorkerPc β → M
  | .processing b | .notifying _ b => held b
  | _ => 0

def WorkerPc.HeldSatisfies (P : β → Prop) : WorkerPc β → Prop
  | .processing b | .notifying _ b => P b
  | _ => True

/-- A program keeps a balance: an item owes what its processing still holds, and what it
holds it hands on to the queue or makes of it. `Good` is its own invariant. -/
structure Conserves [AddCommMonoid M] (prog : WorkerProgram α β ω) (Good : β → Prop)
    (owed : α → M) (held : β → M) (made : ω → M) : Prop where
  load (x : α) : Good (prog.load x) ∧ held (prog.load x) = owed x
  push {b next : β} {arg : PushArg α} {world : ω} : Good b → prog.act b world (.push arg next) →
    Good next ∧ held b = (arg.values.map owed).sum + held next
  work {b next : β} {world world' : ω} : Good b → prog.act b world (.work next world') →
    Good next ∧ held b + made world = held next + made world'
  finish {b : β} {world : ω} : Good b → prog.act b world .finish → held b = 0

section Balance

variable [AddCancelCommMonoid M] {prog : WorkerProgram α β ω} {Good : β → Prop} {owed : α → M}
  {held : β → M} {made : ω → M} {s s' : PoolState n α β ω} {i : Fin n}

def PoolState.total (owed : α → M) (held : β → M) (made : ω → M) (s : PoolState n α β ω) : M :=
  made s.world + (s.queue.underlyingQueue.map owed).sum + ∑ i, (s.workers i).heldSum held

structure Balanced (Good : β → Prop) (owed : α → M) (held : β → M) (made : ω → M) (total : M)
    (s : PoolState n α β ω) : Prop where
  good : ∀ i, (s.workers i).HeldSatisfies Good
  total_eq : s.total owed held made = total

theorem WakesSome.sum_heldSum {w w' : Fin n → WorkerPc β} (h : WakesSome w w') :
    ∑ i, (w' i).heldSum held = ∑ i, (w i).heldSum held := by
  refine Finset.sum_congr rfl fun i _ => ?_
  rcases h i with h | ⟨h, h'⟩
  · rw [h]
  · rw [h, h']
    rfl

namespace Balanced

variable {total : M}

theorem good_of_processing (h : Balanced Good owed held made total s) {b : β}
    (hi : s.workers i = .processing b) : Good b := by
  have hgood := h.good i
  rwa [hi] at hgood

theorem move (h : Balanced Good owed held made total s) {pc : WorkerPc β}
    (hworkers : s'.workers = update s.workers i pc) (hgood : pc.HeldSatisfies Good)
    (hbalance : made s'.world + (s'.queue.underlyingQueue.map owed).sum + pc.heldSum held =
      made s.world + (s.queue.underlyingQueue.map owed).sum + (s.workers i).heldSum held) :
    Balanced Good owed held made total s' := by
  refine ⟨fun j => ?_, ?_⟩
  · rw [hworkers]
    by_cases hj : j = i
    · subst hj
      rwa [update_self]
    · rw [update_of_ne hj]
      exact h.good j
  · have hsum := sum_update (WorkerPc.heldSum held) s.workers i pc
    rw [← h.total_eq]
    refine add_right_cancel (b := (s.workers i).heldSum held) ?_
    unfold PoolState.total
    rw [hworkers]
    set output := made s'.world + (s'.queue.underlyingQueue.map owed).sum
    calc output + ∑ j, (update s.workers i pc j).heldSum held + (s.workers i).heldSum held
      _ = output + (∑ j, (s.workers j).heldSum held + pc.heldSum held) := by rw [add_assoc, hsum]
      _ = output + pc.heldSum held + ∑ j, (s.workers j).heldSum held := by abel
      _ = made s.world + (s.queue.underlyingQueue.map owed).sum +
          ∑ j, (s.workers j).heldSum held + (s.workers i).heldSum held := by
        rw [hbalance, add_right_comm]

theorem wakes (h : Balanced Good owed held made total s) (hworkers : WakesSome s.workers s'.workers)
    (hqueue : s'.queue.underlyingQueue = s.queue.underlyingQueue) (hworld : s'.world = s.world) :
    Balanced Good owed held made total s' := by
  refine ⟨fun i => ?_, ?_⟩
  · rcases hworkers i with hi | ⟨_, hi⟩
    · rw [hi]
      exact h.good i
    · rw [hi]
      trivial
  · rw [← h.total_eq, PoolState.total, hworkers.sum_heldSum, hqueue, hworld, PoolState.total]

theorem enterPull (h : Balanced Good owed held made total s) (hi : s.workers i = .outside) :
    Balanced Good owed held made total (s.enterPull i) :=
  h.move rfl trivial (by simp [PoolState.enterPull, SyncQueue.enterPull, hi, WorkerPc.heldSum])

theorem resumePull (hprog : Conserves prog Good owed held made)
    (h : Balanced Good owed held made total s) (hi : s.workers i = .woken) :
    Balanced Good owed held made total (s.resumePull prog i) := by
  rcases resumePull_cases prog s i with ⟨_, _, he⟩ | ⟨_, _, he⟩ | ⟨x, xs, hq, he⟩ <;> rw [he]
  · exact h.move rfl trivial (by simp [PoolState.setWorker, hi, WorkerPc.heldSum])
  · exact h.move rfl trivial (by simp [hi, WorkerPc.heldSum])
  · obtain ⟨hgood, hload⟩ := hprog.load x
    refine h.move rfl hgood ?_
    simp only [hi, hq, WorkerPc.heldSum, hload, List.map_cons, List.sum_cons]
    abel

theorem pushBack (hprog : Conserves prog Good owed held made)
    (h : Balanced Good owed held made total s) (hopen : s.queue.closed = false) {b next : β}
    {arg : PushArg α} (hi : s.workers i = .processing b)
    (ha : prog.act b s.world (.push arg next)) :
    Balanced Good owed held made total (s.pushBack i arg next) := by
  obtain ⟨hgood, hpush⟩ := hprog.push (h.good_of_processing hi) ha
  rcases pushBack_cases s i arg next with ⟨hc, _⟩ | ⟨_, he⟩
  · rw [hopen] at hc
    simp at hc
  · rw [he]
    refine h.move rfl hgood ?_
    simp only [hi, WorkerPc.heldSum, hpush, List.map_append, List.sum_append]
    abel

theorem step (hprog : Conserves prog Good owed held made) {e : Event α}
    (h : Balanced Good owed held made total s) (hc : Counted s) (hquiet : Quiet s)
    (hs : PoolStep prog False s e s') : Balanced Good owed held made total s' := by
  have hresume (t : PoolState n α β ω) (ht : Balanced Good owed held made total t) :
      Balanced Good owed held made total t.resumeWait := by
    rcases resumeWait_cases t with ⟨_, he⟩ | ⟨_, he⟩ <;> rw [he] <;> exact ⟨ht.good, ht.total_eq⟩
  cases hs with
  | pullFront i hi => exact (h.enterPull hi).resumePull hprog (update_self ..)
  | reacquire i hi => exact h.resumePull hprog hi
  | spurious i hi => exact h.wakes (wakesSome_update hi) rfl rfl
  | push i hi ha =>
    refine h.pushBack hprog ?_ hi ha
    rw [← Bool.not_eq_true, hc.closed_iff]
    intro hclosed
    exact ((hquiet hclosed.hasWaited).2 i).not_holdsItem (by rw [hi]; trivial)
  | @notify i b _ _ hi hw =>
    have hgood := h.good i
    rw [hi] at hgood
    have hmove : Balanced Good owed held made total (s.setWorker i (.processing b)) :=
      h.move rfl hgood (by simp [PoolState.setWorker, hi, WorkerPc.heldSum])
    exact hmove.wakes hw.wakesSome rfl rfl
  | work i hi ha =>
    obtain ⟨hnext, hwork⟩ := hprog.work (h.good_of_processing hi) ha
    refine h.move rfl hnext ?_
    simp only [PoolState.setWorker, hi, WorkerPc.heldSum]
    rw [add_right_comm, add_comm (made _), ← hwork]
    abel
  | finish i hi ha =>
    have hfinish := hprog.finish (h.good_of_processing hi) ha
    exact h.move rfl trivial (by simp [PoolState.setWorker, hi, WorkerPc.heldSum, hfinish])
  | masterWait _ =>
    refine hresume _ ⟨h.good, ?_⟩
    rw [← h.total_eq]
    unfold PoolState.enterWait SyncQueue.setLevel
    split <;> rfl
  | masterReacquire _ => exact hresume s h
  | closeNotify _ => exact h.wakes (wakesSome_wake _) rfl rfl
  | externalPush hext _ => exact hext.elim
  | externalNotify _ hw => exact h.wakes hw.wakesSome rfl rfl
  | _ => exact ⟨h.good, h.total_eq⟩

theorem made_eq (h : Balanced Good owed held made total s) (hquiet : Quiet s)
    (hm : s.master.HasWaited) : made s.world = total := by
  obtain ⟨hqueue, hidle⟩ := hquiet hm
  have hheld (i : Fin n) : (s.workers i).heldSum held = 0 := by
    have := (hidle i).not_holdsItem
    cases hi : s.workers i <;> simp_all [WorkerPc.heldSum, WorkerPc.HoldsItem]
  rw [← h.total_eq, PoolState.total, hqueue]
  simp [hheld]

end Balanced

theorem Conserves.balanced (hprog : Conserves prog Good owed held made) {queue : List α} {world : ω}
    (h : Reachable (PoolInit n queue world) (PoolStep prog False) s) :
    Balanced Good owed held made (made world + (queue.map owed).sum) s := by
  refine Reachable.invariant (I := Balanced Good owed held made _) (fun t ht => ?_)
    (fun t e u hreach ht hstep =>
      ht.step hprog (Counted.reachable hreach) (Quiet.reachable hreach) hstep) h
  subst ht
  exact ⟨fun _ => trivial, by simp [PoolState.total, WorkerPc.heldSum]⟩

/-- Whatever the schedule: when the wait is over, the output has grown by what the first
items owed. -/
theorem Conserves.made_eq (hprog : Conserves prog Good owed held made) {queue : List α} {world : ω}
    (h : Reachable (PoolInit n queue world) (PoolStep prog False) s) (hm : s.master.HasWaited) :
    made s.world = made world + (queue.map owed).sum :=
  (hprog.balanced h).made_eq (Quiet.reachable h) hm

end Balance

end Ucg
