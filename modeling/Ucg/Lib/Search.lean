import Mathlib.Tactic.Common

/-! Searches for the least index with a property, one index at a time or in blocks. -/

namespace Search

/-- `i` is the least index below `n` with property `P`, or `n` when there is none. -/
structure IsFirst (P : Nat → Prop) (n i : Nat) : Prop where
  le : i ≤ n
  hit : i < n → P i
  before : ∀ j < i, ¬ P j

theorem IsFirst.unique {P : Nat → Prop} {n i k : Nat} (hi : IsFirst P n i)
    (hk : IsFirst P n k) : i = k := by
  have := hi.le
  have := hk.le
  rcases Nat.lt_trichotomy i k with h | h | h
  · exact (hk.before i h (hi.hit (by omega))).elim
  · exact h
  · exact (hi.before k h (hk.hit (by omega))).elim

theorem IsFirst.of_none {P : Nat → Prop} {n : Nat} (h : ∀ j < n, ¬ P j) : IsFirst P n n :=
  ⟨Nat.le_refl n, fun hn => by omega, h⟩

def first (p : Nat → Bool) (n : Nat) : Nat := ((List.range n).find? p).getD n

theorem isFirst_first (p : Nat → Bool) (n : Nat) : IsFirst (fun i => p i = true) n (first p n) := by
  unfold first
  cases h : (List.range n).find? p with
  | none =>
    refine IsFirst.of_none fun j hj => ?_
    simpa using List.find?_range_eq_none.mp h j hj
  | some i =>
    obtain ⟨hp, hi, hj⟩ := List.find?_range_eq_some.mp h
    exact ⟨Nat.le_of_lt (List.mem_range.mp hi), fun _ => hp, fun j hlt => by simpa using hj j hlt⟩

theorem exists_isFirst (P : Nat → Prop) (n : Nat) : ∃ i, IsFirst P n i := by
  classical
  refine ⟨first (fun i => decide (P i)) n, ?_⟩
  simpa using isFirst_first (fun i => decide (P i)) n

theorem findSome?_range_eq_some {β : Type*} {f : Nat → Option β} {n : Nat} {r : β}
    (h : (List.range n).findSome? f = some r) :
    ∃ b < n, f b = some r ∧ ∀ b' < b, f b' = none := by
  induction n with
  | zero => simp at h
  | succ n ih =>
    rw [List.range_succ, List.findSome?_append] at h
    cases hn : (List.range n).findSome? f with
    | some r' =>
      rw [hn] at h
      obtain ⟨b, hb, hf, hbefore⟩ := ih (hn.trans (by simpa using h))
      exact ⟨b, by omega, hf, hbefore⟩
    | none =>
      refine ⟨n, by omega, ?_, ?_⟩
      · simpa [hn] using h
      · intro b hb
        exact List.findSome?_eq_none_iff.mp hn b (List.mem_range.mpr hb)

theorem findSome?_range'_eq_some_iff {β : Type*} {f : Nat → Option β} {a n : Nat} {x : β} :
    (List.range' a n).findSome? f = some x ↔
      ∃ i, a ≤ i ∧ i < a + n ∧ f i = some x ∧ ∀ j, a ≤ j → j < i → f j = none := by
  induction n generalizing a with
  | zero =>
    simp only [List.range'_zero, List.findSome?_nil]
    exact ⟨nofun, fun ⟨i, hle, hlt, _⟩ => by omega⟩
  | succ n ih =>
    rw [List.range'_succ, List.findSome?_cons]
    cases ha : f a with
    | some y =>
      constructor
      · intro h
        exact ⟨a, Nat.le_refl a, by omega, ha.trans h, fun j hj hj' => by omega⟩
      · rintro ⟨i, hle, -, hi, hbefore⟩
        rcases Nat.lt_or_eq_of_le hle with hlt | rfl
        · rw [hbefore a (Nat.le_refl a) hlt] at ha
          cases ha
        · exact ha.symm.trans hi
    | none =>
      dsimp only
      rw [ih]
      constructor
      · rintro ⟨i, hle, hlt, hi, hbefore⟩
        refine ⟨i, by omega, by omega, hi, fun j hj hji => ?_⟩
        rcases Nat.lt_or_eq_of_le hj with hj | rfl
        · exact hbefore j hj hji
        · exact ha
      · rintro ⟨i, hle, hlt, hi, hbefore⟩
        have hne : i ≠ a := by
          rintro rfl
          rw [ha] at hi
          cases hi
        exact ⟨i, by omega, by omega, hi, fun j hj hji => hbefore j (by omega) hji⟩

theorem isFirst_of_blocks {P : Nat → Prop} {len w blocks : Nat} {f : Nat → Option Nat}
    (hw : 0 < w) (hcover : len ≤ w * blocks)
    (hnone : ∀ b, f b = none → ∀ j, w * b ≤ j → j < w * (b + 1) → j < len → ¬ P j)
    (hsome : ∀ b r, f b = some r → r < len ∧ P r ∧ ∀ j, w * b ≤ j → j < r → ¬ P j) :
    IsFirst P len (((List.range blocks).findSome? f).getD len) := by
  have hblock : ∀ j, w * (j / w) ≤ j ∧ j < w * (j / w + 1) := fun j =>
    ⟨Nat.mul_div_le j w, Nat.lt_mul_div_succ j hw⟩
  cases h : (List.range blocks).findSome? f with
  | none =>
    refine IsFirst.of_none fun j hj => ?_
    have hb : j / w < blocks := Nat.div_lt_of_lt_mul (by omega)
    exact hnone (j / w) (List.findSome?_eq_none_iff.mp h _ (List.mem_range.mpr hb)) j
      (hblock j).1 (hblock j).2 hj
  | some r =>
    obtain ⟨b, -, hf, hbefore⟩ := findSome?_range_eq_some h
    obtain ⟨hr, hp, hfirst⟩ := hsome b r hf
    refine ⟨Nat.le_of_lt hr, fun _ => hp, fun j hj => ?_⟩
    by_cases hjb : w * b ≤ j
    · exact hfirst j hjb hj
    · have hlt : j / w < b := Nat.div_lt_of_lt_mul (by omega)
      exact hnone (j / w) (hbefore _ hlt) j (hblock j).1 (hblock j).2 (by simp at hj; omega)

end Search
