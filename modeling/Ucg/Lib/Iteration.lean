import Mathlib.Tactic.Common

/-! Loops given by one evaluation of their guard and body, run for a bounded number of
evaluations, with the rules for invariants, termination, lockstep simulation and divergence. -/

namespace Iteration

/-- One evaluation either hands on the next state or leaves the loop. -/
inductive Outcome (σ ρ : Type*)
  | next (s : σ)
  | done (r : ρ)
  deriving DecidableEq, Repr

variable {σ τ ρ υ : Type*}

def Outcome.Holds (I : σ → Prop) (Q : ρ → Prop) : Outcome σ ρ → Prop
  | .next s => I s
  | .done r => Q r

theorem Outcome.Holds.mono {I I' : σ → Prop} {Q Q' : ρ → Prop} {o : Outcome σ ρ}
    (h : o.Holds I Q) (hI : ∀ s, I s → I' s) (hQ : ∀ r, Q r → Q' r) : o.Holds I' Q' := by
  cases o with
  | next s => exact hI s h
  | done r => exact hQ r h

theorem Outcome.Holds.and {I I' : σ → Prop} {Q Q' : ρ → Prop} {o : Outcome σ ρ}
    (h : o.Holds I Q) (h' : o.Holds I' Q') :
    o.Holds (fun s => I s ∧ I' s) (fun r => Q r ∧ Q' r) := by
  cases o with
  | next s => exact ⟨h, h'⟩
  | done r => exact ⟨h, h'⟩

def Outcome.Related (R : σ → τ → Prop) (S : ρ → υ → Prop) : Outcome σ ρ → Outcome τ υ → Prop
  | .next s, .next t => R s t
  | .done r, .done u => S r u
  | _, _ => False

/-- The loop after at most `n` evaluations. -/
def run (step : σ → Outcome σ ρ) : Nat → σ → Outcome σ ρ
  | 0, s => .next s
  | n + 1, s =>
    match step s with
    | .next t => run step n t
    | .done r => .done r

def Terminates (step : σ → Outcome σ ρ) (s : σ) : Prop := ∃ n r, run step n s = .done r

variable {step : σ → Outcome σ ρ}

theorem run_succ_next {s t : σ} (h : step s = .next t) (n : Nat) :
    run step (n + 1) s = run step n t := by
  simp [run, h]

theorem run_succ_done {s : σ} {r : ρ} (h : step s = .done r) (n : Nat) :
    run step (n + 1) s = .done r := by
  simp [run, h]

theorem run_done_add {n : Nat} {s : σ} {r : ρ} (h : run step n s = .done r) (m : Nat) :
    run step (n + m) s = .done r := by
  induction n generalizing s with
  | zero => simp [run] at h
  | succ n ih =>
    cases hs : step s with
    | next t =>
      rw [run_succ_next hs] at h
      rw [Nat.succ_add, run_succ_next hs]
      exact ih h
    | done r' =>
      rw [run_succ_done hs] at h
      rw [Nat.succ_add, run_succ_done hs, h]

theorem run_done_unique {n m : Nat} {s : σ} {r r' : ρ}
    (h : run step n s = .done r) (h' : run step m s = .done r') : r = r' := by
  have hn := run_done_add h m
  have hm := run_done_add h' n
  rw [Nat.add_comm m n, hn] at hm
  simpa using hm

theorem run_holds {I : σ → Prop} {Q : ρ → Prop}
    (hstep : ∀ s, I s → (step s).Holds I Q) (n : Nat) {s : σ} (hs : I s) :
    (run step n s).Holds I Q := by
  induction n generalizing s with
  | zero => exact hs
  | succ n ih =>
    have h := hstep s hs
    cases hn : step s with
    | next t =>
      rw [run_succ_next hn]
      rw [hn] at h
      exact ih h
    | done r =>
      rw [run_succ_done hn]
      rwa [hn] at h

theorem terminates_of_measure {I : σ → Prop} {Q : ρ → Prop} (μ : σ → Nat)
    (hstep : ∀ s, I s → (step s).Holds (fun t => I t ∧ μ t < μ s) Q) {s : σ} (hs : I s) :
    ∃ r, run step (μ s + 1) s = .done r ∧ Q r := by
  induction hm : μ s using Nat.strongRecOn generalizing s with
  | ind m ih =>
    have h := hstep s hs
    cases hn : step s with
    | next t =>
      rw [hn] at h
      obtain ⟨ht, hlt⟩ := h
      obtain ⟨r, hr, hq⟩ := ih (μ t) (hm ▸ hlt) ht rfl
      refine ⟨r, ?_, hq⟩
      rw [run_succ_next hn]
      have he : m = μ t + 1 + (m - (μ t + 1)) := by omega
      rw [he]
      exact run_done_add hr _
    | done r =>
      rw [hn] at h
      exact ⟨r, run_succ_done hn m, h⟩

theorem run_related {step' : τ → Outcome τ υ} {R : σ → τ → Prop} {S : ρ → υ → Prop}
    (hstep : ∀ s t, R s t → (step s).Related R S (step' t)) (n : Nat) {s : σ} {t : τ}
    (h : R s t) : (run step n s).Related R S (run step' n t) := by
  induction n generalizing s t with
  | zero => exact h
  | succ n ih =>
    have hh := hstep s t h
    cases hs : step s with
    | next s' =>
      cases ht : step' t with
      | next t' =>
        rw [run_succ_next hs, run_succ_next ht]
        rw [hs, ht] at hh
        exact ih hh
      | done u => rw [hs, ht] at hh; exact hh.elim
    | done r =>
      cases ht : step' t with
      | next t' => rw [hs, ht] at hh; exact hh.elim
      | done u =>
        rw [run_succ_done hs, run_succ_done ht]
        rwa [hs, ht] at hh

theorem not_terminates_of_closed {I : σ → Prop}
    (hstep : ∀ s, I s → (step s).Holds I (fun _ => False)) {s : σ} (hs : I s) :
    ¬ Terminates step s := by
  rintro ⟨n, r, h⟩
  have hh := run_holds hstep n hs
  rw [h] at hh
  exact hh

end Iteration
