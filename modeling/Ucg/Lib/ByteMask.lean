import Ucg.Lib.Simd

/-! The comparison of sixteen bytes at once, with the masks of bytes and of bits that it gives. -/

namespace Simd

open Search

def set1Epi8 (c : UInt8) : Mem := fun _ => c

def cmpeqEpi8 (a b : Mem) : Mem := fun i => if a i = b i then 0xFF else 0

/-- `PTEST`: whether the two registers have no set bit in common. -/
def testAllZeros (mask bits : Mem) : Bool := (List.range 16).all fun i => mask i &&& bits i == 0

/-- `PMOVMSKB`: the highest bit of each byte. -/
def movemaskEpi8 (a : Mem) : BitVec 32 :=
  (BitVec.ofBoolListLE ((List.range 16).map fun i => (a i).toNat.testBit 7)).setWidth 32

/-- One more than the index of the lowest set bit, or 0. -/
def ffs {w : Nat} (bits : BitVec w) : Nat :=
  if bits = 0 then 0 else first bits.getLsbD w + 1

variable {c : UInt8} {frag : Mem} {i : Nat}

theorem testAllZeros_cmpeqEpi8 :
    testAllZeros (cmpeqEpi8 frag (set1Epi8 c)) (set1Epi8 0xFF) = true ↔ ∀ i < 16, frag i ≠ c := by
  simp only [testAllZeros, List.all_eq_true, List.mem_range, beq_iff_eq]
  refine forall₂_congr fun i _ => ?_
  rw [cmpeqEpi8, set1Epi8, set1Epi8]
  by_cases h : frag i = c
  · rw [if_pos h]
    exact iff_of_false (by decide) (not_not_intro h)
  · rw [if_neg h]
    exact iff_of_true (by decide) h

theorem getLsbD_movemaskEpi8 (hi : i < 16) :
    (movemaskEpi8 (cmpeqEpi8 frag (set1Epi8 c))).getLsbD i = true ↔ frag i = c := by
  have h32 : i < 32 := by omega
  rw [movemaskEpi8, BitVec.getLsbD_setWidth, BitVec.getLsbD_ofBoolListLE]
  by_cases h : frag i = c
  · simp [hi, h32, cmpeqEpi8, set1Epi8, h]
    decide
  · simp [hi, h32, cmpeqEpi8, set1Epi8, h]

theorem getLsbD_movemaskEpi8_of_le (a : Mem) (hi : 16 ≤ i) : (movemaskEpi8 a).getLsbD i = false := by
  rw [movemaskEpi8, BitVec.getLsbD_setWidth, BitVec.getLsbD_ofBoolListLE]
  simp [hi]

/-- The index is that of the first byte that is `c`, and 0 when there is none among the sixteen. -/
theorem ffs_movemaskEpi8 (c : UInt8) (frag : Mem) :
    ffs (movemaskEpi8 (cmpeqEpi8 frag (set1Epi8 c))) = findFirstSetBit (equalMask c frag) := by
  have hfirst := isFirst_leastSignificant (equalMask c frag)
  have hequal (i : Nat) : equalMask c frag i = true ↔ frag i = c := by simp [equalMask]
  rw [ffs, findFirstSetBit]
  by_cases hlt : leastSignificant (equalMask c frag) < 16
  · have hhit := (hequal _).mp (hfirst.hit hlt)
    have hbit := (getLsbD_movemaskEpi8 hlt).mpr hhit
    have hne : movemaskEpi8 (cmpeqEpi8 frag (set1Epi8 c)) ≠ 0 := by
      intro hzero
      rw [hzero] at hbit
      simp at hbit
    have hsame : first (movemaskEpi8 (cmpeqEpi8 frag (set1Epi8 c))).getLsbD 32 =
        leastSignificant (equalMask c frag) := by
      refine (isFirst_first _ 32).unique ⟨by omega, fun _ => hbit, fun j hj hset => ?_⟩
      exact hfirst.before j hj ((hequal j).mpr ((getLsbD_movemaskEpi8 (by omega)).mp hset))
    rw [if_neg hne, if_pos hlt, hsame]
  · have hzero : movemaskEpi8 (cmpeqEpi8 frag (set1Epi8 c)) = 0 := by
      refine BitVec.eq_of_getLsbD_eq fun i _ => ?_
      rw [BitVec.ofNat_eq_ofNat, BitVec.getLsbD_zero]
      rcases Nat.lt_or_ge i 16 with hi | hi
      · refine Bool.eq_false_iff.mpr fun hset => ?_
        have hle := hfirst.le
        exact hfirst.before i (by omega) ((hequal i).mpr ((getLsbD_movemaskEpi8 hi).mp hset))
      · exact getLsbD_movemaskEpi8_of_le _ hi
    rw [if_pos hzero, if_neg hlt]

end Simd
