import Ucg.Completion

/-! The pool without its locks, its wakeups and its master: what is queued, what the workers
hold, and the world. -/

namespace Ucg

open Transition Function

variable {n : Nat} {α β ω : Type*}

def WorkerPc.hand : WorkerPc β → Option β
  | .processing b | .notifying _ b => some b
  | _ => none

structure PoolView (n : Nat) (α β ω : Type*) where
  items : List α
  hands : Fin n → Option β
  world : ω

def PoolState.view (s : PoolState n α β ω) : PoolView n α β ω :=
  ⟨s.queue.underlyingQueue, WorkerPc.hand ∘ s.workers, s.world⟩

inductive PoolMove (prog : WorkerProgram α β ω) : PoolView n α β ω → PoolView n α β ω → Prop
  | idle (v : PoolView n α β ω) : PoolMove prog v v
  | pull {v : PoolView n α β ω} (i : Fin n) {x : α} {xs : List α} (hi : v.hands i = none)
      (hitems : v.items = x :: xs) :
      PoolMove prog v { v with items := xs, hands := update v.hands i (some (prog.load x)) }
  | push {v : PoolView n α β ω} (i : Fin n) {b next : β} {arg : PushArg α} (hi : v.hands i = some b)
      (ha : prog.act b v.world (.push arg next)) :
      PoolMove prog v
        { v with items := v.items ++ arg.values, hands := update v.hands i (some next) }
  | work {v : PoolView n α β ω} (i : Fin n) {b next : β} {world : ω} (hi : v.hands i = some b)
      (ha : prog.act b v.world (.work next world)) :
      PoolMove prog v { v with hands := update v.hands i (some next), world := world }
  | finish {v : PoolView n α β ω} (i : Fin n) {b : β} (hi : v.hands i = some b)
      (ha : prog.act b v.world .finish) :
      PoolMove prog v { v with hands := update v.hands i none }

variable {prog : WorkerProgram α β ω} {s s' : PoolState n α β ω} {i : Fin n}

theorem WakesSome.hands {w w' : Fin n → WorkerPc β} (h : WakesSome w w') :
    WorkerPc.hand ∘ w' = WorkerPc.hand ∘ w := by
  funext i
  rcases h i with h | ⟨h, h'⟩
  · rw [comp_apply, h, comp_apply]
  · rw [comp_apply, h', comp_apply, h]
    rfl

theorem hands_update_same {w : Fin n → WorkerPc β} {pc : WorkerPc β} (h : pc.hand = (w i).hand) :
    WorkerPc.hand ∘ update w i pc = WorkerPc.hand ∘ w := by
  rw [comp_update, h]
  exact update_eq_self i (WorkerPc.hand ∘ w)

theorem view_enterPull (hi : s.workers i = .outside) : (s.enterPull i).view = s.view := by
  simp only [PoolState.view, PoolState.enterPull, SyncQueue.enterPull]
  rw [hands_update_same (by rw [hi]; rfl)]

theorem resumePull_move (hi : s.workers i = .woken) :
    PoolMove prog s.view (s.resumePull prog i).view := by
  have hhand : (s.workers i).hand = none := by rw [hi]; rfl
  rcases resumePull_cases prog s i with ⟨_, _, he⟩ | ⟨_, _, he⟩ | ⟨x, xs, hq, he⟩ <;> rw [he]
  · have hsame : (s.setWorker i .asleep).view = s.view := by
      simp only [PoolState.view, PoolState.setWorker]
      rw [hands_update_same (by rw [hhand]; rfl)]
    rw [hsame]
    exact .idle _
  · simp only [PoolState.view]
    rw [hands_update_same (by rw [hhand]; rfl)]
    exact .idle _
  · simp only [PoolState.view, comp_update]
    exact .pull i hhand hq

theorem view_resumeWait (s : PoolState n α β ω) : s.resumeWait.view = s.view := by
  rcases resumeWait_cases s with ⟨_, he⟩ | ⟨_, he⟩ <;> rw [he] <;> rfl

theorem view_enterWait (s : PoolState n α β ω) : s.enterWait.view = s.view := by
  simp only [PoolState.view, PoolState.enterWait, SyncQueue.setLevel]
  by_cases hn : 0 < n
  · rw [if_pos hn]
  · rw [if_neg hn]

theorem PoolStep.move {e : Event α} (hc : Counted s) (hquiet : Quiet s)
    (h : PoolStep prog False s e s') : PoolMove prog s.view s'.view := by
  cases h with
  | pullFront i hi =>
    rw [← view_enterPull hi]
    exact resumePull_move (update_self ..)
  | reacquire i hi => exact resumePull_move hi
  | spurious i hi =>
    have hsame : (s.setWorker i .woken).view = s.view := by
      simp only [PoolState.view, PoolState.setWorker]
      rw [hands_update_same (by rw [hi]; rfl)]
    rw [hsame]
    exact .idle _
  | @push i b arg next hi ha =>
    have hhand : s.view.hands i = some b := by simp [PoolState.view, hi, WorkerPc.hand]
    rcases pushBack_cases s i arg next with ⟨hclosed, _⟩ | ⟨_, he⟩
    · have hidle := (hquiet (hc.closed_iff.1 hclosed).hasWaited).2 i
      exact absurd (by rw [hi]; trivial) hidle.not_holdsItem
    · rw [he]
      simp only [PoolState.view, comp_update]
      exact .push i hhand ha
  | @notify i b k w hi hw =>
    have hsame : WorkerPc.hand ∘ w = WorkerPc.hand ∘ s.workers := by
      rw [hw.wakesSome.hands, hands_update_same (by rw [hi]; rfl)]
    simp only [PoolState.view, hsame]
    exact .idle _
  | @work i b next world hi ha =>
    simp only [PoolState.view, PoolState.setWorker, comp_update]
    exact .work (v := s.view) i (by simp [PoolState.view, hi, WorkerPc.hand]) ha
  | @finish i b hi ha =>
    simp only [PoolState.view, PoolState.setWorker, comp_update]
    exact .finish (v := s.view) i (by simp [PoolState.view, hi, WorkerPc.hand]) ha
  | masterWait _ =>
    rw [view_resumeWait, view_enterWait]
    exact .idle _
  | masterReacquire _ =>
    rw [view_resumeWait]
    exact .idle _
  | closeNotify _ =>
    simp only [PoolState.view, (wakesSome_wake s.workers).hands]
    exact .idle _
  | externalPush hext _ => exact hext.elim
  | externalNotify _ hw =>
    simp only [PoolState.view, hw.wakesSome.hands]
    exact .idle _
  | masterSpurious _ => exact .idle _
  | close _ => exact .idle _
  | join _ _ => exact .idle _

theorem Quiet.view (hquiet : Quiet s) (hm : s.master.HasWaited) :
    s.view.items = [] ∧ ∀ i, s.view.hands i = none := by
  obtain ⟨hitems, hidle⟩ := hquiet hm
  refine ⟨hitems, fun i => ?_⟩
  have hnot := (hidle i).not_holdsItem
  cases hi : s.workers i <;> simp_all [PoolState.view, WorkerPc.hand, WorkerPc.HoldsItem]

/-- What the steps of a program keep of its items, its hands and its world. -/
structure Maintains (prog : WorkerProgram α β ω) (GoodItem : α → Prop) (Good : β → Prop)
    (GoodWorld : ω → Prop) : Prop where
  load (x : α) : GoodItem x → Good (prog.load x)
  push {b next : β} {arg : PushArg α} {world : ω} : Good b → prog.act b world (.push arg next) →
    Good next ∧ ∀ x ∈ arg.values, GoodItem x
  work {b next : β} {world world' : ω} : Good b → GoodWorld world →
    prog.act b world (.work next world') → Good next ∧ GoodWorld world'

structure PoolView.AllGood (GoodItem : α → Prop) (Good : β → Prop) (GoodWorld : ω → Prop)
    (v : PoolView n α β ω) : Prop where
  items : ∀ x ∈ v.items, GoodItem x
  hands : ∀ i, ∀ b ∈ v.hands i, Good b
  world : GoodWorld v.world

section Maintained

variable {GoodItem : α → Prop} {Good : β → Prop} {GoodWorld : ω → Prop} {v v' : PoolView n α β ω}

theorem good_update {hands : Fin n → Option β} (h : ∀ j, ∀ b ∈ hands j, Good b) {hand : Option β}
    (hhand : ∀ b ∈ hand, Good b) (j : Fin n) : ∀ b ∈ update hands i hand j, Good b := by
  by_cases hj : j = i
  · subst hj
    rwa [update_self]
  · rw [update_of_ne hj]
    exact h j

theorem Maintains.move (hprog : Maintains prog GoodItem Good GoodWorld)
    (h : v.AllGood GoodItem Good GoodWorld) (hmove : PoolMove prog v v') :
    v'.AllGood GoodItem Good GoodWorld := by
  cases hmove with
  | idle => exact h
  | pull i hi hitems =>
    obtain ⟨hx, hrest⟩ := List.forall_mem_cons.mp (hitems ▸ h.items)
    refine ⟨hrest, good_update h.hands ?_, h.world⟩
    simpa using hprog.load _ hx
  | push i hi ha =>
    obtain ⟨hnext, hvalues⟩ := hprog.push (h.hands i _ hi) ha
    exact ⟨List.forall_mem_append.mpr ⟨h.items, hvalues⟩, good_update h.hands (by simpa using hnext), h.world⟩
  | work i hi ha =>
    obtain ⟨hnext, hworld⟩ := hprog.work (h.hands i _ hi) h.world ha
    exact ⟨h.items, good_update h.hands (by simpa using hnext), hworld⟩
  | finish i hi ha => exact ⟨h.items, good_update h.hands (by simp), h.world⟩

theorem Maintains.reachable (hprog : Maintains prog GoodItem Good GoodWorld) {queue : List α} {world : ω}
    (hqueue : ∀ x ∈ queue, GoodItem x) (hworld : GoodWorld world)
    (h : Reachable (PoolInit n queue world) (PoolStep prog False) s) :
    s.view.AllGood GoodItem Good GoodWorld := by
  refine Reachable.invariant
    (I := fun s => s.view.AllGood GoodItem Good GoodWorld) ?_ (fun t e u hreach ht hstep => ?_) h
  · rintro s rfl
    exact ⟨hqueue, by simp [PoolState.view, WorkerPc.hand], hworld⟩
  · exact hprog.move ht (hstep.move (Counted.reachable hreach) (Quiet.reachable hreach))

end Maintained

end Ucg
