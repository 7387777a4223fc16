import Ucg.Lib.Transition

/-! A queue that can be closed, as an abstract transition system over its operations. -/

namespace Fifo

open Transition

structure Queue (α : Type*) where
  contents : List α
  closed : Bool

/-- The operations with their results: an accepted push of several values, a refused push, a
delivered value, the answer that no value will come any more, and the close. -/
inductive Op (α : Type*)
  | accept (xs : List α)
  | refuse (xs : List α)
  | deliver (x : α)
  | finish
  | close

variable {α : Type*}

inductive Step : Queue α → Op α → Queue α → Prop
  | accept {q : Queue α} (xs : List α) (h : q.closed = false) :
    Step q (.accept xs) { q with contents := q.contents ++ xs }
  | refuse {q : Queue α} (xs : List α) (h : q.closed = true) : Step q (.refuse xs) q
  | deliver {q : Queue α} {x : α} {rest : List α} (h : q.contents = x :: rest) :
    Step q (.deliver x) { q with contents := rest }
  | finish {q : Queue α} (h : q.contents = []) (hclosed : q.closed = true) : Step q .finish q
  | close (q : Queue α) : Step q .close { q with closed := true }

def Init (q : Queue α) : Prop := q.contents = [] ∧ q.closed = false

def Op.accepted : Op α → List α
  | .accept xs => xs
  | _ => []

def Op.delivered : Op α → List α
  | .deliver x => [x]
  | _ => []

def accepted (ops : List (Op α)) : List α := ops.flatMap Op.accepted

def delivered (ops : List (Op α)) : List α := ops.flatMap Op.delivered

theorem Step.conservation {q r : Queue α} {op : Op α} (h : Step q op r) :
    op.delivered ++ r.contents = q.contents ++ op.accepted := by
  cases h with
  | accept => simp [Op.delivered, Op.accepted]
  | refuse => simp [Op.delivered, Op.accepted]
  | deliver h => simp [Op.delivered, Op.accepted, h]
  | finish => simp [Op.delivered, Op.accepted]
  | close => simp [Op.delivered, Op.accepted]

theorem conservation {ops : List (Op α)} {q : Queue α} (h : Traced Init Step ops q) :
    delivered ops ++ q.contents = accepted ops := by
  induction h with
  | start h => simp [delivered, accepted, h.1]
  | tail _ hstep ih =>
    simp only [delivered, accepted, List.flatMap_append, List.flatMap_singleton] at ih ⊢
    rw [List.append_assoc, hstep.conservation, ← List.append_assoc, ih]

theorem Step.of_finish {q r : Queue α} (h : Step q .finish r) : q.contents = [] ∧ q.closed = true := by
  cases h with
  | finish hempty hclosed => exact ⟨hempty, hclosed⟩

theorem Step.closed_iff {q r : Queue α} {op : Op α} (h : Step q op r) :
    r.closed = true ↔ q.closed = true ∨ op = .close := by
  cases h <;> simp

theorem closed_iff {ops : List (Op α)} {q : Queue α} (h : Traced Init Step ops q) :
    q.closed = true ↔ .close ∈ ops := by
  induction h with
  | start h => simp [h.2]
  | tail _ hstep ih => rw [hstep.closed_iff, ih, List.mem_append, List.mem_singleton, eq_comm (a := Op.close)]

end Fifo
