import Mathlib.Data.List.Chain
import Mathlib.Data.Set.Insert
import Mathlib.Order.Cover
import Mathlib.Order.Monotone.Basic

/-! Sets of an ordered type as lists of closed intervals in ascending order, with a gap between
any two of them, and what the next larger element makes of such a list. -/

namespace Intervals

variable {α : Type*} [LinearOrder α] {pairs : List (α × α)} {s : Set α} {first last c d : α}

structure Covers (pairs : List (α × α)) (s : Set α) : Prop where
  ordered : ∀ p ∈ pairs, p.1 ≤ p.2
  separated : pairs.Pairwise fun p q => ∃ c, p.2 < c ∧ c < q.1
  mem_iff : ∀ c, c ∈ s ↔ ∃ p ∈ pairs, p.1 ≤ c ∧ c ≤ p.2

theorem Covers.nil : Covers [] (∅ : Set α) := ⟨by simp, List.Pairwise.nil, by simp⟩

theorem Covers.single (c : α) : Covers [(c, c)] {c} := by
  refine ⟨by simp, List.pairwise_singleton _ _, fun d => ?_⟩
  simp only [List.mem_singleton, exists_eq_left, Set.mem_singleton_iff]
  exact le_antisymm_iff.trans and_comm

/-- The next element behind the last interval makes it longer. -/
theorem Covers.extend (h : Covers (pairs ++ [(first, last)]) s) (hc : last ⋖ c) :
    Covers (pairs ++ [(first, c)]) (insert c s) := by
  have hordered := h.ordered
  have hfirst : first ≤ last := hordered (first, last) (by simp)
  obtain ⟨hpairs, -, hlast⟩ := List.pairwise_append.mp h.separated
  refine ⟨?_, List.pairwise_append.mpr ⟨hpairs, List.pairwise_singleton _ _, ?_⟩, fun d => ?_⟩
  · intro p hp
    rcases List.mem_append.mp hp with hp | hp
    · exact hordered p (List.mem_append_left _ hp)
    · obtain rfl := List.mem_singleton.mp hp
      exact hfirst.trans hc.lt.le
  · intro p hp q hq
    obtain rfl := List.mem_singleton.mp hq
    exact hlast p hp (first, last) List.mem_cons_self
  · have hmem := h.mem_iff d
    simp only [List.mem_append, List.mem_singleton, or_and_right, exists_or, exists_eq_left] at hmem ⊢
    rw [Set.mem_insert_iff, hmem]
    constructor
    · rintro (rfl | hd | ⟨hlo, hhi⟩)
      · exact Or.inr ⟨hfirst.trans hc.lt.le, le_refl d⟩
      · exact Or.inl hd
      · exact Or.inr ⟨hlo, hhi.trans hc.lt.le⟩
    · rintro (hd | ⟨hlo, hhi⟩)
      · exact Or.inr (Or.inl hd)
      · rcases eq_or_lt_of_le hhi with heq | hlt
        · exact Or.inl heq
        · exact Or.inr (Or.inr ⟨hlo, not_lt.mp fun hd => hc.2 hd hlt⟩)

/-- A larger element behind a gap begins a new interval. -/
theorem Covers.append (h : Covers (pairs ++ [(first, last)]) s) (hgap : ∃ d, last < d ∧ d < c) :
    Covers (pairs ++ [(first, last)] ++ [(c, c)]) (insert c s) := by
  obtain ⟨d, hlast, hd⟩ := hgap
  have hends : ∀ p ∈ pairs ++ [(first, last)], p.2 ≤ last := by
    intro p hp
    rcases List.mem_append.mp hp with hp | hp
    · obtain ⟨e, hpe, hef⟩ := (List.pairwise_append.mp h.separated).2.2 p hp (first, last)
        List.mem_cons_self
      exact hpe.le.trans (hef.le.trans (h.ordered (first, last) (by simp)))
    · obtain rfl := List.mem_singleton.mp hp
      exact le_refl _
  refine ⟨?_, List.pairwise_append.mpr ⟨h.separated, List.pairwise_singleton _ _, ?_⟩, fun e => ?_⟩
  · intro p hp
    rcases List.mem_append.mp hp with hp | hp
    · exact h.ordered p hp
    · obtain rfl := List.mem_singleton.mp hp
      exact le_refl c
  · intro p hp q hq
    obtain rfl := List.mem_singleton.mp hq
    exact ⟨d, (hends p hp).trans_lt hlast, hd⟩
  · have hmem := h.mem_iff e
    simp only [List.mem_append, List.mem_singleton, or_and_right, exists_or, exists_eq_left] at hmem ⊢
    rw [Set.mem_insert_iff, hmem, or_comm, le_antisymm_iff, and_comm (a := e ≤ c)]

theorem Covers.fst_le (h : Covers pairs s) {i k : Nat} (hik : i ≤ k) (hk : k < pairs.length) :
    pairs[i].1 ≤ pairs[k].1 := by
  rcases Nat.eq_or_lt_of_le hik with rfl | hlt
  · exact le_refl _
  · obtain ⟨c, hic, hck⟩ := List.pairwise_iff_getElem.mp h.separated i k (by omega) hk hlt
    exact (h.ordered _ (List.getElem_mem _)).trans (hic.le.trans hck.le)

theorem Covers.snd_le (h : Covers pairs s) {i k : Nat} (hik : i ≤ k) (hk : k < pairs.length) :
    pairs[i].2 ≤ pairs[k].2 := by
  rcases Nat.eq_or_lt_of_le hik with rfl | hlt
  · exact le_refl _
  · obtain ⟨c, hic, hck⟩ := List.pairwise_iff_getElem.mp h.separated i k (by omega) hk hlt
    exact hic.le.trans (hck.le.trans (h.ordered _ (List.getElem_mem _)))

/-- What lies between two successive intervals is not in the set. -/
theorem Covers.isChain_gap (h : Covers pairs s) :
    pairs.IsChain fun p q => ∃ c, p.2 < c ∧ c < q.1 ∧ c ∉ s := by
  rw [List.isChain_iff_getElem]
  intro i hi
  obtain ⟨c, hic, hci⟩ := List.pairwise_iff_getElem.mp h.separated i (i + 1) (by omega) hi
    (Nat.lt_succ_self i)
  refine ⟨c, hic, hci, fun hc => ?_⟩
  obtain ⟨p, hp, hlo, hhi⟩ := (h.mem_iff c).mp hc
  obtain ⟨k, hk, rfl⟩ := List.getElem_of_mem hp
  rcases Nat.lt_or_ge i k with hik | hki
  · exact absurd (hci.trans_le (h.fst_le hik hk)) (not_lt.mpr hlo)
  · exact absurd ((h.snd_le hki (by omega)).trans_lt hic) (not_lt.mpr hhi)

/-- Each interval and the gap behind it take up two elements. -/
theorem Covers.two_mul_length_le {f : α → Nat} (hf : StrictMono f)
    (h : Covers (pairs ++ [(first, last)]) s) : 2 * pairs.length ≤ f first := by
  induction pairs using List.reverseRecOn generalizing first last s with
  | nil => simp
  | append_singleton pairs p ih =>
    obtain ⟨hpairs, -, hbetween⟩ := List.pairwise_append.mp h.separated
    have hprefix : Covers (pairs ++ [(p.1, p.2)]) {c | ∃ q ∈ pairs ++ [p], q.1 ≤ c ∧ c ≤ q.2} :=
      ⟨fun q hq => h.ordered q (List.mem_append_left _ hq), hpairs, fun c => Iff.rfl⟩
    have hlength := ih hprefix
    obtain ⟨c, hpc, hcf⟩ := hbetween p (by simp) (first, last) List.mem_cons_self
    have hle := hf.monotone (h.ordered p (by simp))
    have hlt := hf hpc
    have hlt' : f c < f first := hf hcf
    rw [List.length_append, List.length_singleton]
    omega

end Intervals
