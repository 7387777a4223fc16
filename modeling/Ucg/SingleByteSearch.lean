import Ucg.CodeUnitTable
import Ucg.Lib.ByteMask
import Ucg.Lib.Iteration

/-! The loop of the vectorised search for one byte, with its masks, and that it is `std::find`. -/

namespace Ucg

open Simd Search Iteration

/-- One round of the loop at offset `i`. The result is an offset from `cbegin`. -/
def findStep (c : UInt8) (mem : Mem) (cbegin len i : Nat) : Outcome Nat Nat :=
  if i < len then
    let matchBytemask := cmpeqEpi8 (lddqu mem (cbegin + i)) (set1Epi8 c)
    if testAllZeros matchBytemask (set1Epi8 0xFF) = false then
      let matchBitmask := movemaskEpi8 matchBytemask
      if 0 < matchBitmask then
        let lowestBit := ffs matchBitmask
        if 0 < lowestBit ∧ i + lowestBit - 1 < len then .done (min (i + lowestBit - 1) len)
        else .next (i + 16)
      else .next (i + 16)
    else .next (i + 16)
  else .done len

variable {c : UInt8} {mem : Mem} {cbegin len i : Nat}

/-- The tests of the masks before that of the lowest bit leave out nothing. -/
theorem findStep_eq (h : i < len) : findStep c mem cbegin len i =
    let bit := leastSignificant (equalMask c (lddqu mem (cbegin + i)))
    if bit < 16 ∧ i + bit < len then .done (i + bit) else .next (i + 16) := by
  have hfirst := isFirst_leastSignificant (equalMask c (lddqu mem (cbegin + i)))
  have hffs := ffs_movemaskEpi8 c (lddqu mem (cbegin + i))
  rw [findFirstSetBit] at hffs
  simp only [findStep, if_pos h]
  by_cases h16 : leastSignificant (equalMask c (lddqu mem (cbegin + i))) < 16
  · have hhit : lddqu mem (cbegin + i) (leastSignificant (equalMask c (lddqu mem (cbegin + i)))) = c := by
      simpa [equalMask] using hfirst.hit h16
    have htest : testAllZeros (cmpeqEpi8 (lddqu mem (cbegin + i)) (set1Epi8 c)) (set1Epi8 0xFF) =
        false := Bool.eq_false_iff.mpr fun hzero => testAllZeros_cmpeqEpi8.mp hzero _ h16 hhit
    rw [if_pos h16] at hffs
    have hne : movemaskEpi8 (cmpeqEpi8 (lddqu mem (cbegin + i)) (set1Epi8 c)) ≠ 0 := by
      intro hzero
      rw [hzero, ffs, if_pos rfl] at hffs
      exact Nat.succ_ne_zero _ hffs.symm
    have hpos : 0 < movemaskEpi8 (cmpeqEpi8 (lddqu mem (cbegin + i)) (set1Epi8 c)) := by
      rw [BitVec.lt_def]
      exact Nat.pos_of_ne_zero fun hzero => hne (BitVec.eq_of_toNat_eq (by simpa using hzero))
    rw [if_pos htest, if_pos hpos, hffs]
    simp only [Nat.add_succ_sub_one, Nat.zero_lt_succ, true_and, h16]
    by_cases hlt : i + leastSignificant (equalMask c (lddqu mem (cbegin + i))) < len
    · rw [if_pos hlt, if_pos hlt, Nat.min_eq_left (Nat.le_of_lt hlt)]
    · rw [if_neg hlt, if_neg hlt]
  · rw [if_neg h16] at hffs
    simp only [hffs, h16, Nat.lt_irrefl, false_and, if_false, ite_self]

theorem findStep_holds (c : UInt8) (mem : Mem) (cbegin len : Nat)
    (h : ∀ j < min i len, mem (cbegin + j) ≠ c) :
    (findStep c mem cbegin len i).Holds
      (fun i' => (∀ j < min i' len, mem (cbegin + j) ≠ c) ∧ len - i' < len - i)
      (IsFirst (fun j => mem (cbegin + j) = c) len) := by
  by_cases hi : i < len
  · have hfirst := isFirst_leastSignificant (equalMask c (lddqu mem (cbegin + i)))
    have hmiss (j : Nat) (hij : i ≤ j)
        (hj : j < i + leastSignificant (equalMask c (lddqu mem (cbegin + i)))) :
        mem (cbegin + j) ≠ c := by
      intro hat
      refine hfirst.before (j - i) (by omega) ?_
      have hsum : cbegin + i + (j - i) = cbegin + j := by omega
      simpa [equalMask, lddqu, hsum] using hat
    have hbefore (j : Nat) (hj : j < i + leastSignificant (equalMask c (lddqu mem (cbegin + i)))) :
        mem (cbegin + j) ≠ c := by
      rcases Nat.lt_or_ge j i with hji | hij
      · exact h j (by omega)
      · exact hmiss j hij hj
    rw [findStep_eq hi]
    dsimp only
    split
    · rename_i hcond
      refine ⟨Nat.le_of_lt hcond.2, fun _ => ?_, hbefore⟩
      simpa [equalMask, lddqu, Nat.add_assoc] using hfirst.hit hcond.1
    · rename_i hcond
      refine ⟨fun j hj => hbefore j ?_, by omega⟩
      have hle := hfirst.le
      omega
  · rw [findStep, if_neg hi]
    exact IsFirst.of_none fun j hj => h j (by omega)

/-- The masks of the loop find what the search by blocks finds. -/
theorem run_findStep_eq_find (c : UInt8) (mem : Mem) (cbegin len : Nat) :
    run (findStep c mem cbegin len) (len + 1) 0 = .done (find c mem cbegin len) := by
  obtain ⟨r, hrun, hr⟩ := terminates_of_measure (len - ·)
    (fun i (h : ∀ j < min i len, mem (cbegin + j) ≠ c) => findStep_holds c mem cbegin len h)
    (s := 0) (by simp)
  rw [Nat.sub_zero] at hrun
  rw [hrun, hr.unique (isFirst_find c mem cbegin len)]

/-- The search returns, and with the first of the bytes that is the one sought, or the end. -/
theorem run_findStep_isFirst (c : UInt8) (mem : Mem) (cbegin len : Nat) :
    ∃ n r, run (findStep c mem cbegin len) n 0 = .done r ∧
      (∀ i < len, mem (cbegin + i) = c → (∀ j < i, mem (cbegin + j) ≠ c) → r = i) ∧
      ((∀ i < len, mem (cbegin + i) ≠ c) → r = len) := by
  have hfirst := isFirst_find c mem cbegin len
  refine ⟨len + 1, find c mem cbegin len, run_findStep_eq_find c mem cbegin len, ?_, ?_⟩
  · intro i hi hat hbefore
    exact hfirst.unique ⟨Nat.le_of_lt hi, fun _ => hat, hbefore⟩
  · intro hnone
    exact hfirst.unique (IsFirst.of_none hnone)

end Ucg
