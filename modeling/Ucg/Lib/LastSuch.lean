import Mathlib.Data.List.Basic
import Mathlib.Data.List.Induction

/-! The last element of a list that satisfies a predicate, and folds that it decides. -/

section LastSuch

variable {α σ β : Type*} {p : α → Bool} {l : List α} {a : α}

def lastSuch (p : α → Bool) (l : List α) : Option α := (l.filter p).getLast?

@[simp] theorem lastSuch_nil : lastSuch p [] = none := rfl

theorem lastSuch_concat : lastSuch p (l ++ [a]) = if p a then some a else lastSuch p l := by
  by_cases h : p a <;> simp [lastSuch, List.filter_append, h]

theorem lastSuch_eq_none_iff : lastSuch p l = none ↔ ∀ a ∈ l, p a = false := by
  simp [lastSuch]

theorem lastSuch_mem (h : lastSuch p l = some a) : a ∈ l ∧ p a = true :=
  List.mem_filter.mp (List.mem_of_getLast? h)

theorem lastSuch_filter {q : α → Bool} :
    lastSuch q (l.filter p) = lastSuch (fun a => p a && q a) l := by
  rw [lastSuch, lastSuch, List.filter_filter]
  simp only [Bool.and_comm]

theorem lastSuch_eq_some_iff : lastSuch p l = some a ↔
    ∃ pre post, l = pre ++ a :: post ∧ p a = true ∧ ∀ b ∈ post, p b = false := by
  rw [lastSuch, List.getLast?_eq_some_iff]
  constructor
  · rintro ⟨ys, h⟩
    obtain ⟨front, back, rfl, -, hback⟩ := List.filter_eq_append_iff.mp h
    obtain ⟨pre, post, rfl, -, ha, hpost⟩ := List.filter_eq_cons_iff.mp hback
    exact ⟨front ++ pre, post, by simp, ha, by simpa using List.filter_eq_nil_iff.mp hpost⟩
  · rintro ⟨pre, post, rfl, ha, hpost⟩
    refine ⟨pre.filter p, ?_⟩
    have hnone : post.filter p = [] := List.filter_eq_nil_iff.mpr (by simpa using hpost)
    rw [List.filter_append, List.filter_cons_of_pos ha, hnone]

/-- A part of the state that the chosen steps set, and that the others leave alone, holds at
the end what the last chosen step set. -/
theorem foldl_eq_of_lastSuch (p : α → Bool) (step : σ → α → σ) (inv : σ → Prop) (view : σ → β)
    (set : α → β) (hinv : ∀ s a, inv s → inv (step s a))
    (hset : ∀ s a, inv s → p a = true → view (step s a) = set a)
    (hskip : ∀ s a, inv s → p a = false → view (step s a) = view s) (l : List α) {s : σ}
    (hs : inv s) :
    view (l.foldl step s) = ((lastSuch p l).map set).getD (view s) ∧ inv (l.foldl step s) := by
  induction l using List.reverseRecOn with
  | nil => exact ⟨rfl, hs⟩
  | append_singleton l a ih =>
    obtain ⟨hview, hi⟩ := ih
    rw [List.foldl_append, List.foldl_cons, List.foldl_nil, lastSuch_concat]
    refine ⟨?_, hinv _ _ hi⟩
    by_cases ha : p a = true
    · rw [if_pos ha, hset _ _ hi ha]
      rfl
    · rw [if_neg ha, hskip _ _ hi (by simpa using ha), hview]

end LastSuch
