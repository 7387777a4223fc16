import Mathlib.Data.List.Lex
import Mathlib.Order.Lattice
import Mathlib.Order.Monotone.Basic
import Mathlib.Tactic.Common

/-! Numbers written with the digits of an ordered type, the most significant first: numbers of one
length are in the order of their digits, and the least digit may be left off at the end. -/

namespace Positional

variable {α : Type*} {digit : α → Nat} {base m n : Nat} {s t : List α} {z : α}

/-- The number `m` with the digits of `s` behind it. -/
def value (digit : α → Nat) (base m : Nat) (s : List α) : Nat :=
  s.foldl (fun x c => x * base + digit c) m

theorem value_cons (c : α) : value digit base m (c :: s) = value digit base (m * base + digit c) s :=
  rfl

/-- The digits, with the least one behind them up to the length `n`. -/
def padded (z : α) (n : Nat) (s : List α) : List α := s ++ List.replicate (n - s.length) z

theorem padded_nil_succ : padded z (n + 1) [] = z :: List.replicate n z := rfl

theorem padded_cons (c : α) : padded z (n + 1) (c :: s) = c :: padded z n s := by
  rw [padded, List.length_cons, Nat.add_sub_add_right, List.cons_append, padded]

theorem length_padded (h : s.length ≤ n) : (padded z n s).length = n := by
  rw [padded, List.length_append, List.length_replicate, Nat.add_sub_cancel' h]

variable [LinearOrder α]

theorem shift_lt_iff {c d : α} (hmono : StrictMono digit) (hbase : ∀ c, digit c < base) :
    m * base + digit c < n * base + digit d ↔ m < n ∨ m = n ∧ c < d := by
  have hc := hbase c
  have hd := hbase d
  rcases Nat.lt_trichotomy m n with hlt | rfl | hlt
  · have hstep : (m + 1) * base ≤ n * base := Nat.mul_le_mul_right base hlt
    rw [Nat.succ_mul] at hstep
    exact iff_of_true (by omega) (Or.inl hlt)
  · simp [hmono.lt_iff_lt]
  · have hstep : (n + 1) * base ≤ m * base := Nat.mul_le_mul_right base hlt
    rw [Nat.succ_mul] at hstep
    refine iff_of_false (by omega) ?_
    rintro (h | ⟨h, -⟩) <;> omega

theorem value_lt_iff (hmono : StrictMono digit) (hbase : ∀ c, digit c < base)
    (hlen : s.length = t.length) :
    value digit base m s < value digit base n t ↔ m < n ∨ m = n ∧ s < t := by
  induction s generalizing t m n with
  | nil =>
    obtain rfl := List.length_eq_zero_iff.mp hlen.symm
    simp [value]
  | cons c s ih =>
    cases t with
    | nil => simp at hlen
    | cons d t =>
      rw [value_cons, value_cons, ih (Nat.succ.inj hlen), shift_lt_iff hmono hbase,
        List.cons_lt_cons_iff]
      constructor
      · rintro ((hlt | ⟨rfl, hcd⟩) | ⟨heq, hst⟩)
        · exact Or.inl hlt
        · exact Or.inr ⟨rfl, Or.inl hcd⟩
        · have hmn : ¬ (m * base + digit c < n * base + digit d) := by omega
          have hnm : ¬ (n * base + digit d < m * base + digit c) := by omega
          rw [shift_lt_iff hmono hbase, not_or, not_and] at hmn hnm
          have hsame : m = n := by omega
          exact Or.inr ⟨hsame, Or.inr ⟨le_antisymm (not_lt.mp (hnm.2 hsame.symm))
            (not_lt.mp (hmn.2 hsame)), hst⟩⟩
      · rintro (hlt | ⟨rfl, hcd | ⟨rfl, hst⟩⟩)
        · exact Or.inl (Or.inl hlt)
        · exact Or.inl (Or.inr ⟨rfl, hcd⟩)
        · exact Or.inr ⟨rfl, hst⟩

theorem padded_lt_iff (hs : ∀ c ∈ s, z < c) (ht : ∀ c ∈ t, z < c) (hls : s.length ≤ n)
    (hlt : t.length ≤ n) : padded z n s < padded z n t ↔ s < t := by
  induction s generalizing t n with
  | nil =>
    cases t with
    | nil => simp
    | cons d t =>
      obtain ⟨n, rfl⟩ := Nat.exists_eq_add_one_of_ne_zero (Nat.ne_of_gt (Nat.lt_of_lt_of_le
        (Nat.zero_lt_succ _) hlt))
      have hd := ht d List.mem_cons_self
      rw [padded_cons, padded_nil_succ, List.cons_lt_cons_iff]
      exact iff_of_true (Or.inl hd) (List.nil_lt_cons d t)
  | cons c s ih =>
    obtain ⟨n, rfl⟩ := Nat.exists_eq_add_one_of_ne_zero (Nat.ne_of_gt (Nat.lt_of_lt_of_le
      (Nat.zero_lt_succ _) hls))
    cases t with
    | nil =>
      have hc := hs c List.mem_cons_self
      rw [padded_cons, padded_nil_succ, List.cons_lt_cons_iff]
      refine iff_of_false ?_ (List.not_lt_nil _)
      rintro (h | ⟨rfl, -⟩)
      · exact lt_asymm hc h
      · exact lt_irrefl _ hc
    | cons d t =>
      rw [padded_cons, padded_cons, List.cons_lt_cons_iff, List.cons_lt_cons_iff,
        ih (fun c hc => hs c (List.mem_cons_of_mem _ hc))
          (fun c hc => ht c (List.mem_cons_of_mem _ hc)) (Nat.le_of_succ_le_succ hls)
          (Nat.le_of_succ_le_succ hlt)]

end Positional
