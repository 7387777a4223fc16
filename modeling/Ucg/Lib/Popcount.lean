import Mathlib.Algebra.BigOperators.Intervals
import Mathlib.Algebra.Order.BigOperators.Group.Finset
import Mathlib.Data.Nat.Bitwise
import Mathlib.Tactic.Common

/-! The number of set bits of a machine word, as a sum over its bits and by clearing the
lowest set bit until none is left. -/

namespace Popcount

def bitSum (x w : Nat) : Nat := ∑ i ∈ Finset.range w, (x.testBit i).toNat

theorem bitSum_succ (x w : Nat) : bitSum x (w + 1) = bitSum (x / 2) w + x % 2 := by
  rw [bitSum, Finset.sum_range_succ', Nat.toNat_testBit, Nat.pow_zero, Nat.div_one]
  simp only [Nat.testBit_succ, bitSum]

theorem bitSum_zero (w : Nat) : bitSum 0 w = 0 := by simp [bitSum]

theorem bitSum_and_sub_one {x : Nat} (w : Nat) (hpos : 0 < x) (hx : x < 2 ^ w) :
    bitSum (x &&& (x - 1)) w + 1 = bitSum x w := by
  induction w generalizing x with
  | zero => omega
  | succ w ih =>
    have hhalf : (x &&& (x - 1)) / 2 = x / 2 &&& (x - 1) / 2 := Nat.and_div_two
    have hlast : (x &&& (x - 1)) % 2 = 0 := by
      have hboth : (x &&& (x - 1)) % 2 = 1 ↔ x % 2 = 1 ∧ (x - 1) % 2 = 1 :=
        Nat.and_mod_two_eq_one
      omega
    rw [bitSum_succ, bitSum_succ, hhalf, hlast]
    rcases Nat.mod_two_eq_zero_or_one x with heven | hodd
    · have hbelow : (x - 1) / 2 = x / 2 - 1 := by omega
      rw [hbelow, heven]
      exact ih (by omega) (by omega)
    · have hbelow : (x - 1) / 2 = x / 2 := by omega
      rw [hbelow, hodd, Nat.and_self]

variable {w : Nat}

/-- The number of set bits, as the instruction counts them. -/
def popcount (bits : BitVec w) : Nat := bitSum bits.toNat w

/-- The loop that clears the lowest set bit and counts its rounds. -/
def kernighan : Nat → BitVec w → Nat
  | 0, _ => 0
  | rounds + 1, bits => if bits = 0 then 0 else kernighan rounds (bits &&& (bits - 1)) + 1

theorem kernighan_eq (rounds : Nat) (bits : BitVec w) (h : popcount bits ≤ rounds) :
    kernighan rounds bits = popcount bits := by
  induction rounds generalizing bits with
  | zero => exact (Nat.le_zero.mp h).symm
  | succ rounds ih =>
    rw [kernighan]
    by_cases hzero : bits = 0
    · rw [if_pos hzero, hzero]
      exact (bitSum_zero w).symm
    · have hpos : 0 < bits.toNat := by
        apply Nat.pos_of_ne_zero
        intro htoNat
        exact hzero (BitVec.eq_of_toNat_eq (by simpa using htoNat))
      have hnext : popcount (bits &&& (bits - 1)) + 1 = popcount bits := by
        have hw : w ≠ 0 := by
          rintro rfl
          exact hzero (BitVec.of_length_zero)
        have hone : (1 : BitVec w).toNat = 1 := by
          rw [BitVec.ofNat_eq_ofNat, BitVec.toNat_ofNat, Nat.mod_eq_of_lt (Nat.one_lt_two_pow hw)]
        have hsub : (bits - 1).toNat = bits.toNat - 1 := by
          rw [BitVec.toNat_sub_of_le (BitVec.le_def.mpr (hone ▸ hpos)), hone]
        rw [popcount, BitVec.toNat_and, hsub]
        exact bitSum_and_sub_one w hpos bits.isLt
      rw [if_neg hzero, ih _ (by omega), hnext]

theorem popcount_eq_sum (bits : BitVec w) :
    popcount bits = ∑ i ∈ Finset.range w, if bits.getLsbD i then 1 else 0 := by
  rw [popcount, bitSum]
  refine Finset.sum_congr rfl fun i _ => ?_
  rw [← BitVec.getLsbD]
  cases bits.getLsbD i <;> rfl

theorem popcount_le (bits : BitVec w) : popcount bits ≤ w := by
  calc popcount bits ≤ ∑ _i ∈ Finset.range w, 1 := by
        rw [popcount_eq_sum]
        exact Finset.sum_le_sum fun i _ => by split <;> omega
    _ = w := by simp

end Popcount
