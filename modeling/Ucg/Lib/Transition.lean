import Mathlib.Algebra.Order.BigOperators.Group.Finset
import Mathlib.Logic.Relation
import Mathlib.Tactic.Abel
import Mathlib.Tactic.Common

/-! Runs of labelled transition systems, their invariants, and sums over the local states
of a family of threads. -/

namespace Transition

variable {σ ε : Type*}

def Steps (step : σ → ε → σ → Prop) : σ → σ → Prop :=
  Relation.ReflTransGen fun s t => ∃ e, step s e t

def Reachable (init : σ → Prop) (step : σ → ε → σ → Prop) (s : σ) : Prop :=
  ∃ s₀, init s₀ ∧ Steps step s₀ s

/-- A run to a state, with what `note` makes of its steps. -/
inductive Recorded {κ : Type*} (init : σ → Prop) (step : σ → ε → σ → Prop) (note : σ → σ → List κ) :
    σ → List κ → Prop
  | start {s : σ} (h : init s) : Recorded init step note s []
  | tail {s t : σ} {l : List κ} (h : Recorded init step note s l) {e : ε} (he : step s e t) :
    Recorded init step note t (l ++ note s t)

/-- A run to a state, with the labels of its steps. -/
inductive Traced (init : σ → Prop) (step : σ → ε → σ → Prop) : List ε → σ → Prop
  | start {s : σ} (h : init s) : Traced init step [] s
  | tail {l : List ε} {s t : σ} (h : Traced init step l s) {e : ε} (he : step s e t) :
    Traced init step (l ++ [e]) t

variable {init : σ → Prop} {step : σ → ε → σ → Prop} {I : σ → Prop}

theorem Steps.invariant (hstep : ∀ s e t, I s → step s e t → I t) {s t : σ}
    (h : Steps step s t) (hs : I s) : I t := by
  induction h with
  | refl => exact hs
  | tail _ hlast ih =>
    obtain ⟨e, he⟩ := hlast
    exact hstep _ e _ ih he

theorem Reachable.start {s : σ} (h : init s) : Reachable init step s :=
  ⟨s, h, Relation.ReflTransGen.refl⟩

theorem Reachable.tail {s t : σ} (h : Reachable init step s) {e : ε} (he : step s e t) :
    Reachable init step t := by
  obtain ⟨s₀, h₀, hsteps⟩ := h
  exact ⟨s₀, h₀, hsteps.tail ⟨e, he⟩⟩

theorem Reachable.trans {s t : σ} (h : Reachable init step s) (hsteps : Steps step s t) :
    Reachable init step t := by
  obtain ⟨s₀, h₀, hrun⟩ := h
  exact ⟨s₀, h₀, Relation.ReflTransGen.trans hrun hsteps⟩

theorem Reachable.invariant (hinit : ∀ s, init s → I s)
    (hstep : ∀ s e t, Reachable init step s → I s → step s e t → I t) {s : σ}
    (h : Reachable init step s) : I s := by
  obtain ⟨s₀, h₀, hsteps⟩ := h
  induction hsteps with
  | refl => exact hinit s₀ h₀
  | tail hrun hlast ih =>
    obtain ⟨e, he⟩ := hlast
    exact hstep _ e _ ⟨s₀, h₀, hrun⟩ ih he

theorem Reachable.mono {step' : σ → ε → σ → Prop} (hle : ∀ s e t, step s e t → step' s e t) {s : σ}
    (h : Reachable init step s) : Reachable init step' s :=
  Reachable.invariant (I := Reachable init step') (fun _ => .start)
    (fun s e t _ hs hstep => hs.tail (hle s e t hstep)) h

section Records

variable {κ : Type*} {note : σ → σ → List κ} {s : σ} {l : List κ}

theorem Recorded.reachable (h : Recorded init step note s l) : Reachable init step s := by
  induction h with
  | start h => exact .start h
  | tail _ he ih => exact ih.tail he

theorem Recorded.invariant {I : σ → List κ → Prop} (hinit : ∀ s, init s → I s [])
    (hstep : ∀ s l e t, Reachable init step s → I s l → step s e t → I t (l ++ note s t))
    (h : Recorded init step note s l) : I s l := by
  induction h with
  | start h => exact hinit _ h
  | tail hrun he ih => exact hstep _ _ _ _ hrun.reachable ih he

end Records

section Traces

variable {s : σ} {l : List ε}

theorem Traced.reachable (h : Traced init step l s) : Reachable init step s := by
  induction h with
  | start h => exact .start h
  | tail _ he ih => exact ih.tail he

theorem Traced.head {t u : σ} {e : ε} (he : step s e t) (h : Traced (· = t) step l u) :
    Traced (· = s) step (e :: l) u := by
  induction h with
  | start h =>
    subst h
    have hstart : Traced (· = s) step [] s := .start rfl
    exact hstart.tail he
  | tail _ hlast ih => exact ih.tail hlast

theorem Traced.invariant {I : List ε → σ → Prop} (hinit : ∀ s, init s → I [] s)
    (hstep : ∀ l s e t, Reachable init step s → I l s → step s e t → I (l ++ [e]) t)
    (h : Traced init step l s) : I l s := by
  induction h with
  | start h => exact hinit _ h
  | tail hrun he ih => exact hstep _ _ _ _ hrun.reachable ih he

/-- A step of the concrete system either is the abstract step that its label stands for, or
leaves the abstract state as it is. Then the abstract states and labels make an abstract run. -/
theorem Traced.simulation {σ' ε' : Type*} {init' : σ' → Prop} {step' : σ' → ε' → σ' → Prop}
    (abs : σ → σ') {label : ε → Option ε'} (hinit : ∀ s, init s → init' (abs s))
    (hstep : ∀ s e t, Reachable init step s → step s e t →
      (∃ e', label e = some e' ∧ step' (abs s) e' (abs t)) ∨ label e = none ∧ abs t = abs s)
    (h : Traced init step l s) : Traced init' step' (l.filterMap label) (abs s) := by
  induction h with
  | start h => exact .start (hinit _ h)
  | @tail l s t hrun e he ih =>
    rw [List.filterMap_append]
    rcases hstep s e t hrun.reachable he with ⟨e', hlabel, hstep'⟩ | ⟨hlabel, habs⟩
    · simpa [hlabel] using ih.tail hstep'
    · simpa [hlabel, habs] using ih

end Traces

section Threads

open Function

variable {ι τ M : Type*} [Fintype ι]

theorem sum_update [DecidableEq ι] [AddCommMonoid M] (f : τ → M) (w : ι → τ) (i : ι) (a : τ) :
    (∑ j, f (update w i a j)) + f (w i) = (∑ j, f (w j)) + f a := by
  have hrest : ∑ j ∈ Finset.univ.erase i, f (update w i a j) = ∑ j ∈ Finset.univ.erase i, f (w j) :=
    Finset.sum_congr rfl fun j hj => by rw [update_of_ne (Finset.ne_of_mem_erase hj)]
  rw [← Finset.add_sum_erase _ _ (Finset.mem_univ i),
    ← Finset.add_sum_erase _ (fun j => f (w j)) (Finset.mem_univ i),
    hrest, update_self]
  abel

theorem sum_le_card (f : τ → Nat) (w : ι → τ) (h : ∀ a, f a ≤ 1) :
    ∑ j, f (w j) ≤ Fintype.card ι := by
  calc ∑ j, f (w j) ≤ ∑ _j : ι, 1 := Finset.sum_le_sum fun j _ => h (w j)
    _ = Fintype.card ι := by simp

theorem eq_one_of_sum_eq_card (f : τ → Nat) (w : ι → τ) (h : ∀ a, f a ≤ 1)
    (hsum : ∑ j, f (w j) = Fintype.card ι) (i : ι) : f (w i) = 1 := by
  by_contra hne
  have hlt : ∑ j, f (w j) < ∑ _j : ι, 1 :=
    Finset.sum_lt_sum (fun j _ => h (w j)) ⟨i, Finset.mem_univ i, Nat.lt_of_le_of_ne (h (w i)) hne⟩
  rw [hsum] at hlt
  simp at hlt

end Threads

end Transition
