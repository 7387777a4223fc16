import Mathlib.Data.Option.Basic
import Mathlib.Logic.Relation
import Mathlib.Order.WellFounded

/-! Threads that hold locks and wait for locks in a well-founded order. -/

namespace LockOrder

variable {τ κ : Type*} {r : κ → κ → Prop} {holder : κ → Option τ} {waitsFor : τ → Option κ}

/-- A thread that is not blocked: it waits for no lock, or for one that is free. -/
def CanGoOn (holder : κ → Option τ) (waitsFor : τ → Option κ) (t : τ) : Prop :=
  ∀ k, waitsFor t = some k → holder k = none

/-- If whoever holds a lock waits for locks below it only, then behind every lock that is held
there is a thread that holds a lock and is not blocked. -/
theorem exists_canGoOn (hr : WellFounded r)
    (horder : ∀ k t k', holder k = some t → waitsFor t = some k' → r k' k) (k : κ) {t : τ}
    (h : holder k = some t) :
    ∃ k' t', holder k' = some t' ∧ CanGoOn holder waitsFor t' := by
  induction k using hr.induction generalizing t with
  | _ k ih =>
    by_cases hgo : CanGoOn holder waitsFor t
    · exact ⟨k, t, h, hgo⟩
    · obtain ⟨k', hwaits, hheld⟩ : ∃ k', waitsFor t = some k' ∧ holder k' ≠ none := by
        simpa [CanGoOn] using hgo
      obtain ⟨t', ht'⟩ := Option.ne_none_iff_exists'.mp hheld
      exact ih k' (horder k t k' h hwaits) ht'

/-- No deadlock: where some thread is blocked, another one holds a lock and is not. -/
theorem exists_holder_canGoOn (hr : WellFounded r)
    (horder : ∀ k t k', holder k = some t → waitsFor t = some k' → r k' k) {t : τ}
    (h : ¬ CanGoOn holder waitsFor t) : ∃ k' t', holder k' = some t' ∧ CanGoOn holder waitsFor t' := by
  obtain ⟨k, -, hheld⟩ : ∃ k, waitsFor t = some k ∧ holder k ≠ none := by simpa [CanGoOn] using h
  obtain ⟨t', ht'⟩ := Option.ne_none_iff_exists'.mp hheld
  exact exists_canGoOn hr horder k ht'

end LockOrder
