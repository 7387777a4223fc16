import Mathlib.Data.Prod.Lex
import Ucg.Conservation
import Ucg.PoolProgress

/-! Without spurious wakeups the pool comes to an end, when what an item costs covers the work on
it and the items that this work pushes. -/

namespace Ucg

open Transition Function

variable {n : Nat} {α β ω : Type*}

/-- `left` is the work that is left with an item in hand. A step that changes the world may raise
it where it lowers the rank of the world. -/
structure Exhausts (prog : WorkerProgram α β ω) (GoodItem : α → Prop) (Good : β → Prop)
    (rank : ω → Nat) (cost : α → Nat) (left : β → Nat) : Prop where
  load {x : α} : GoodItem x → Good (prog.load x) ∧ left (prog.load x) < cost x
  push {b next : β} {arg : PushArg α} {world : ω} : Good b → prog.act b world (.push arg next) →
    (∀ x ∈ arg.values, GoodItem x) ∧ Good next ∧ (arg.values.map cost).sum + left next < left b
  work {b next : β} {world world' : ω} : Good b → prog.act b world (.work next world') →
    Good next ∧ (rank world' < rank world ∨ rank world' = rank world ∧ left next < left b)

/-- A notification may wake all `n` sleepers, so a unit of work outweighs that. -/
def WorkerPc.weight (n : Nat) (left : β → Nat) : WorkerPc β → Nat
  | .exited => 0
  | .asleep => 1
  | .woken => 2
  | .outside => 3
  | .processing b => 4 + (n + 5) * left b
  | .notifying _ b => (n + 5) + (n + 5) * left b

def MasterPc.weight (n : Nat) : MasterPc → Nat
  | .joined => 0
  | .joining => 1
  | .closing => n + 2
  | .returned _ => n + 3
  | .asleep => n + 4
  | .woken => n + 5
  | .start => n + 6

def PoolState.weight (cost : α → Nat) (left : β → Nat) (s : PoolState n α β ω) : Nat :=
  s.master.weight n + ∑ i, (s.workers i).weight n left +
    (n + 5) * (s.queue.underlyingQueue.map cost).sum + (n + 1) * (s.pending .one + s.pending .all)

section Good

variable {prog : WorkerProgram α β ω} {external : Prop} {GoodItem : α → Prop} {Good : β → Prop}
  {s s' : PoolState n α β ω} {i : Fin n}

structure PoolGood (GoodItem : α → Prop) (Good : β → Prop) (s : PoolState n α β ω) : Prop where
  items : ∀ x ∈ s.queue.underlyingQueue, GoodItem x
  workers : ∀ i, (s.workers i).HeldSatisfies Good

namespace PoolGood

theorem of_processing (h : PoolGood GoodItem Good s) {b : β} (hi : s.workers i = .processing b) :
    Good b := by
  have hgood := h.workers i
  rwa [hi] at hgood

theorem move (h : PoolGood GoodItem Good s) {pc : WorkerPc β}
    (hworkers : s'.workers = update s.workers i pc) (hpc : pc.HeldSatisfies Good)
    (hitems : ∀ x ∈ s'.queue.underlyingQueue, GoodItem x) : PoolGood GoodItem Good s' := by
  refine ⟨hitems, fun j => ?_⟩
  rw [hworkers]
  by_cases hji : j = i
  · subst hji
    rwa [update_self]
  · rw [update_of_ne hji]
    exact h.workers j

theorem wakes (h : PoolGood GoodItem Good s) (hworkers : WakesSome s.workers s'.workers)
    (hitems : s'.queue = s.queue) : PoolGood GoodItem Good s' := by
  refine ⟨hitems ▸ h.items, fun j => ?_⟩
  rcases hworkers j with hw | ⟨_, hw⟩ <;> rw [hw]
  · exact h.workers j
  · trivial

theorem resumePull (hload : ∀ x, GoodItem x → Good (prog.load x)) (h : PoolGood GoodItem Good s) :
    PoolGood GoodItem Good (s.resumePull prog i) := by
  rcases resumePull_cases prog s i with ⟨_, _, he⟩ | ⟨_, _, he⟩ | ⟨x, xs, hqueue, he⟩ <;> rw [he]
  · exact h.move rfl trivial h.items
  · exact h.move rfl trivial h.items
  · have hitems := h.items
    rw [hqueue] at hitems
    exact h.move rfl (hload x (hitems x List.mem_cons_self)) fun y hy =>
      hitems y (List.mem_cons_of_mem _ hy)

theorem pushBack (h : PoolGood GoodItem Good s) {arg : PushArg α} {next : β}
    (hvalues : ∀ x ∈ arg.values, GoodItem x) (hnext : Good next) :
    PoolGood GoodItem Good (s.pushBack i arg next) := by
  rcases pushBack_cases s i arg next with ⟨_, he⟩ | ⟨_, he⟩ <;> rw [he]
  · exact h.move rfl hnext h.items
  · refine h.move rfl hnext fun x hx => ?_
    rcases List.mem_append.mp hx with hx | hx
    · exact h.items x hx
    · exact hvalues x hx

theorem resumeWait (h : PoolGood GoodItem Good s) : PoolGood GoodItem Good s.resumeWait := by
  rcases resumeWait_cases s with ⟨_, he⟩ | ⟨_, he⟩ <;> rw [he] <;> exact ⟨h.items, h.workers⟩

theorem enterWait (h : PoolGood GoodItem Good s) : PoolGood GoodItem Good s.enterWait := by
  refine ⟨?_, h.workers⟩
  unfold PoolState.enterWait SyncQueue.setLevel
  split <;> exact h.items

theorem step {rank : ω → Nat} {cost : α → Nat} {left : β → Nat}
    (hprog : Exhausts prog GoodItem Good rank cost left) {e : Event α} (h : PoolGood GoodItem Good s)
    (hs : PoolStep prog False s e s') : PoolGood GoodItem Good s' := by
  have hload (x : α) (hx : GoodItem x) : Good (prog.load x) := (hprog.load hx).1
  cases hs with
  | pullFront i _ =>
    have henter : PoolGood GoodItem Good (s.enterPull i) := h.move rfl trivial h.items
    exact henter.resumePull hload
  | reacquire i _ => exact h.resumePull hload
  | spurious i _ => exact h.move rfl trivial h.items
  | push i hi ha =>
    obtain ⟨hvalues, hnext, -⟩ := hprog.push (h.of_processing hi) ha
    exact h.pushBack hvalues hnext
  | @notify i b _ _ hi hw =>
    have hgood := h.workers i
    rw [hi] at hgood
    have hmove : PoolGood GoodItem Good (s.setWorker i (.processing b)) := h.move rfl hgood h.items
    exact hmove.wakes hw.wakesSome rfl
  | work i hi ha => exact h.move rfl (hprog.work (h.of_processing hi) ha).1 h.items
  | finish i _ _ => exact h.move rfl trivial h.items
  | masterWait _ => exact h.enterWait.resumeWait
  | masterReacquire _ => exact h.resumeWait
  | closeNotify _ => exact h.wakes (wakesSome_wake _) rfl
  | externalPush hext _ => exact hext.elim
  | externalNotify _ hw => exact h.wakes hw.wakesSome rfl
  | _ => exact ⟨h.items, h.workers⟩

end PoolGood

end Good

section Weight

variable {prog : WorkerProgram α β ω} {GoodItem : α → Prop} {Good : β → Prop} {rank : ω → Nat}
  {cost : α → Nat} {left : β → Nat} {s s' : PoolState n α β ω} {i : Fin n}

theorem WakesSome.sum_weight_le {w w' : Fin n → WorkerPc β} (h : WakesSome w w') :
    ∑ i, (w' i).weight n left ≤ ∑ i, (w i).weight n left + n := by
  calc ∑ i, (w' i).weight n left ≤ ∑ i, ((w i).weight n left + 1) := by
        refine Finset.sum_le_sum fun i _ => ?_
        rcases h i with hw | ⟨hw, hw'⟩
        · rw [hw]
          omega
        · rw [hw, hw']
          rfl
    _ = ∑ i, (w i).weight n left + n := by simp [Finset.sum_add_distrib]

theorem MasterPc.weight_wake_le (m : MasterPc) : m.wake.weight n ≤ m.weight n + 1 := by
  cases m <;> simp [MasterPc.wake, MasterPc.weight]

/-- A step of worker `i` alone, with what it makes of the rest of the pool. -/
theorem weight_lt_of_move {pc : WorkerPc β} (hworkers : s'.workers = update s.workers i pc)
    (hlt : s'.master.weight n + pc.weight n left +
        (n + 5) * (s'.queue.underlyingQueue.map cost).sum < s.master.weight n +
        (s.workers i).weight n left + (n + 5) * (s.queue.underlyingQueue.map cost).sum)
    (hpending : s'.pending = s.pending) : s'.weight cost left < s.weight cost left := by
  have hsum := sum_update (WorkerPc.weight n left) s.workers i pc
  simp only [PoolState.weight, hworkers, hpending]
  omega

theorem resumePull_weight_lt (hprog : Exhausts prog GoodItem Good rank cost left)
    (hitems : ∀ x ∈ s.queue.underlyingQueue, GoodItem x) (hi : s.workers i = .woken) :
    (s.resumePull prog i).weight cost left < s.weight cost left := by
  rcases resumePull_cases prog s i with ⟨_, _, he⟩ | ⟨_, _, he⟩ | ⟨x, xs, hqueue, he⟩ <;> rw [he]
  · refine weight_lt_of_move (i := i) rfl ?_ rfl
    simp [PoolState.setWorker, hi, WorkerPc.weight]
  · refine weight_lt_of_move (i := i) rfl ?_ rfl
    simp [hi, WorkerPc.weight]
  · refine weight_lt_of_move (i := i) rfl ?_ rfl
    have hx := hitems x (hqueue ▸ List.mem_cons_self)
    have hcost := Nat.mul_le_mul_left (n + 5) (Nat.succ_le_of_lt (hprog.load hx).2)
    simp only [hi, hqueue, WorkerPc.weight, List.map_cons, List.sum_cons, Nat.mul_add, Nat.succ_eq_add_one] at hcost ⊢
    omega

theorem resumePull_world (prog : WorkerProgram α β ω) (s : PoolState n α β ω) (i : Fin n) :
    (s.resumePull prog i).world = s.world := by
  rcases resumePull_cases prog s i with ⟨_, _, he⟩ | ⟨_, _, he⟩ | ⟨_, _, _, he⟩
  · rw [he, PoolState.setWorker]
  · rw [he]
  · rw [he]

theorem enterPull_weight_le (hi : s.workers i = .outside) :
    (s.enterPull i).weight cost left ≤ s.weight cost left := by
  have hsum := sum_update (WorkerPc.weight n left) s.workers i .woken
  rw [hi] at hsum
  have hmaster : (s.enterPull i).master.weight n ≤ s.master.weight n + 1 := by
    rcases enterPull_master s i with hm | hm <;> rw [hm]
    · exact Nat.le_succ _
    · exact MasterPc.weight_wake_le s.master
  simp only [PoolState.weight, WorkerPc.weight] at hsum hmaster ⊢
  simp only [PoolState.enterPull, SyncQueue.enterPull] at hmaster ⊢
  omega

theorem pushBack_weight_lt (hprog : Exhausts prog GoodItem Good rank cost left) {b next : β} {arg : PushArg α}
    (hgood : Good b) (hi : s.workers i = .processing b) {world : ω}
    (ha : prog.act b world (.push arg next)) :
    (s.pushBack i arg next).weight cost left < s.weight cost left := by
  have hleft := Nat.mul_le_mul_left (n + 5) (Nat.succ_le_of_lt (hprog.push hgood ha).2.2)
  rw [Nat.succ_eq_add_one, Nat.mul_add, Nat.mul_add] at hleft
  rcases pushBack_cases s i arg next with ⟨_, he⟩ | ⟨_, he⟩ <;> rw [he]
  · refine weight_lt_of_move (i := i) rfl ?_ rfl
    simp only [PoolState.setWorker, hi, WorkerPc.weight]
    omega
  · refine weight_lt_of_move (i := i) rfl ?_ rfl
    simp only [hi, WorkerPc.weight, List.map_append, List.sum_append, Nat.mul_add]
    omega

theorem resumeWait_weight_lt (hm : s.master = .woken) :
    s.resumeWait.weight cost left < s.weight cost left := by
  rcases resumeWait_cases s with ⟨_, he⟩ | ⟨_, he⟩ <;> rw [he] <;>
    simp only [PoolState.weight, hm, MasterPc.weight] <;> omega

theorem enterWait_weight_lt (hm : s.master = .start) :
    s.enterWait.weight cost left < s.weight cost left := by
  have hqueue : (s.queue.setLevel n).underlyingQueue = s.queue.underlyingQueue := by
    unfold SyncQueue.setLevel
    split <;> rfl
  simp only [PoolState.enterWait, PoolState.weight, hm, hqueue, MasterPc.weight]
  omega

theorem resumeWait_world (s : PoolState n α β ω) : s.resumeWait.world = s.world := by
  rcases resumeWait_cases s with ⟨_, he⟩ | ⟨_, he⟩ <;> rw [he]

/-- What every step but a spurious wakeup makes of the measure. -/
theorem PoolStep.measure_lt (hprog : Exhausts prog GoodItem Good rank cost left) 
    (hgood : PoolGood GoodItem Good s) {e : Event α} (hs : PoolStep prog False s e s') (hregular : ¬ SpuriousWakeup s s') :
    rank s'.world < rank s.world ∨
      rank s'.world = rank s.world ∧ s'.weight cost left < s.weight cost left := by
  cases hs with
  | pullFront i hi =>
    refine Or.inr ⟨by rw [resumePull_world]; rfl, ?_⟩
    exact Nat.lt_of_lt_of_le (resumePull_weight_lt hprog hgood.items (update_self ..))
      (enterPull_weight_le hi)
  | reacquire i hi => exact Or.inr ⟨by rw [resumePull_world], resumePull_weight_lt hprog hgood.items hi⟩
  | spurious i hi => exact (hregular (Or.inl ⟨i, hi, rfl⟩)).elim
  | push i hi ha =>
    refine Or.inr ⟨?_, pushBack_weight_lt hprog (hgood.of_processing hi) hi ha⟩
    rcases pushBack_cases s i _ _ with ⟨_, he⟩ | ⟨_, he⟩
    · rw [he, PoolState.setWorker]
    · rw [he]
  | @notify i b k w hi hw =>
    have hsum := sum_update (WorkerPc.weight n left) s.workers i (.processing b)
    have hwakes := @WakesSome.sum_weight_le _ _ left _ _ hw.wakesSome
    have hprocessing : WorkerPc.weight n left (.processing b) = 4 + (n + 5) * left b := rfl
    have hnotifying : WorkerPc.weight n left (.notifying k b) = (n + 5) + (n + 5) * left b := rfl
    rw [hi, hprocessing, hnotifying] at hsum
    refine Or.inr ⟨rfl, ?_⟩
    simp only [PoolState.weight]
    omega
  | work i hi ha =>
    rcases (hprog.work (hgood.of_processing hi) ha).2 with hrank | ⟨hrank, hlt⟩
    · exact Or.inl hrank
    · refine Or.inr ⟨hrank, weight_lt_of_move (i := i) rfl ?_ rfl⟩
      have hleft := Nat.mul_lt_mul_of_pos_left hlt (show 0 < n + 5 by omega)
      simp only [PoolState.setWorker, hi, WorkerPc.weight]
      omega
  | finish i hi ha =>
    refine Or.inr ⟨rfl, weight_lt_of_move (i := i) rfl ?_ rfl⟩
    simp only [PoolState.setWorker, hi, WorkerPc.weight]
    omega
  | masterWait hm =>
    refine Or.inr ⟨by rw [resumeWait_world]; rfl, ?_⟩
    exact (resumeWait_weight_lt rfl).trans (enterWait_weight_lt hm)
  | masterReacquire hm => exact Or.inr ⟨by rw [resumeWait_world], resumeWait_weight_lt hm⟩
  | masterSpurious hm => exact (hregular (Or.inr ⟨hm, rfl⟩)).elim
  | close hm => exact Or.inr ⟨rfl, by simp [PoolState.weight, hm, MasterPc.weight, SyncQueue.close]⟩
  | closeNotify hm =>
    have hwakes := @WakesSome.sum_weight_le _ _ left _ _ (wakesSome_wake s.workers)
    refine Or.inr ⟨rfl, ?_⟩
    simp only [PoolState.weight, hm, MasterPc.weight]
    omega
  | join hm _ => exact Or.inr ⟨rfl, by simp [PoolState.weight, hm, MasterPc.weight]⟩
  | externalPush hext _ => exact hext.elim
  | @externalNotify k w hk hw =>
    have hwakes := @WakesSome.sum_weight_le _ _ left _ _ hw.wakesSome
    refine Or.inr ⟨rfl, ?_⟩
    cases k with
    | one =>
      have hpending : s.pending .one - 1 + s.pending .all + 1 = s.pending .one + s.pending .all := by omega
      have hmul := congrArg ((n + 1) * ·) hpending
      simp only [Nat.mul_add] at hmul
      simp only [PoolState.weight, update_self, ne_eq, reduceCtorEq, not_false_eq_true, update_of_ne, Nat.mul_add]
      omega
    | all =>
      have hpending : s.pending .one + (s.pending .all - 1) + 1 = s.pending .one + s.pending .all := by omega
      have hmul := congrArg ((n + 1) * ·) hpending
      simp only [Nat.mul_add] at hmul
      simp only [PoolState.weight, update_self, ne_eq, reduceCtorEq, not_false_eq_true, update_of_ne, Nat.mul_add]
      omega

end Weight

section Termination

variable {prog : WorkerProgram α β ω} {GoodItem : α → Prop} {Good : β → Prop} {rank : ω → Nat}
  {cost : α → Nat} {left : β → Nat} {s t : PoolState n α β ω} {queue : List α} {world : ω}

theorem PoolGood.reachable (hprog : Exhausts prog GoodItem Good rank cost left)
    (hqueue : ∀ x ∈ queue, GoodItem x)
    (h : Reachable (PoolInit n queue world) (PoolStep prog False) s) : PoolGood GoodItem Good s := by
  refine Reachable.invariant (I := PoolGood GoodItem Good) (fun t ht => ?_)
    (fun _ _ _ _ hgood hstep => hgood.step hprog hstep) h
  subst ht
  exact ⟨hqueue, fun _ => trivial⟩

/-- The rank of the world, then the weight of the pool. -/
def PoolState.measure (rank : ω → Nat) (cost : α → Nat) (left : β → Nat) (s : PoolState n α β ω) :
    Nat ×ₗ Nat :=
  toLex (rank s.world, s.weight cost left)

theorem PoolState.measure_lt (hprog : Exhausts prog GoodItem Good rank cost left)
    (hqueue : ∀ x ∈ queue, GoodItem x)
    (h : Reachable (PoolInit n queue world) (PoolStep prog False) s) {e : Event α}
    (hstep : PoolStep prog False s e t) (hregular : ¬ SpuriousWakeup s t) :
    t.measure rank cost left < s.measure rank cost left := by
  rw [PoolState.measure, PoolState.measure, Prod.Lex.toLex_lt_toLex]
  exact hstep.measure_lt hprog (PoolGood.reachable hprog hqueue h) hregular

end Termination

end Ucg
