import Mathlib.Logic.Function.Basic
import Mathlib.Data.Nat.Bitwise

/-! A C heap, and the arithmetic of aligned addresses. -/

/-- The sizes of the live blocks by their addresses, the memory, and whether `free` has been
called for an address of no live block. -/
structure CHeap where
  live : Nat → Option Nat
  memory : Nat → UInt8
  freedTwice : Bool

namespace CHeap

open Function

def alloc (h : CHeap) (p size : Nat) : CHeap := { h with live := update h.live p (some size) }

def free (h : CHeap) (p : Nat) : CHeap :=
  { h with live := update h.live p none, freedTwice := h.freedTwice || (h.live p).isNone }

def memset (h : CHeap) (p : Nat) (c : UInt8) (n : Nat) : CHeap :=
  { h with memory := fun i => if p ≤ i ∧ i < p + n then c else h.memory i }

variable (h : CHeap) (p n : Nat) (c : UInt8)

@[simp] theorem live_alloc_self : (h.alloc p n).live p = some n := update_self ..

@[simp] theorem live_free_self : (h.free p).live p = none := update_self ..

@[simp] theorem freedTwice_alloc : (h.alloc p n).freedTwice = h.freedTwice := rfl

@[simp] theorem freedTwice_memset : (h.memset p c n).freedTwice = h.freedTwice := rfl

theorem freedTwice_free_of_live {h : CHeap} {p n : Nat} (hp : h.live p = some n) :
    (h.free p).freedTwice = h.freedTwice := by
  simp [free, hp]

theorem memory_memset {h : CHeap} {p n i : Nat} {c : UInt8} (hi : p ≤ i) (hn : i < p + n) :
    (h.memset p c n).memory i = c :=
  if_pos ⟨hi, hn⟩

end CHeap

section Alignment

/-- The place of the lowest bit of a 64-bit word that is set. -/
def countTrailingZeros (x : Nat) : Nat := (List.range 64).findIdx x.testBit

theorem two_pow_countTrailingZeros_dvd (x : Nat) : 2 ^ countTrailingZeros x ∣ x := by
  rw [Nat.dvd_iff_mod_eq_zero]
  refine Nat.eq_of_testBit_eq fun j => ?_
  rw [Nat.testBit_mod_two_pow, Nat.zero_testBit]
  by_cases hj : j < countTrailingZeros x
  · have hnot := List.not_of_lt_findIdx hj
    simpa [hj] using hnot
  · simp [hj]

theorem le_countTrailingZeros {x k : Nat} (hx : x ≠ 0) (hlt : x < 2 ^ 64) (h : 2 ^ k ∣ x) :
    k ≤ countTrailingZeros x := by
  by_contra hk
  have hpow : 2 ^ k < 2 ^ 64 := (Nat.le_of_dvd (Nat.pos_of_ne_zero hx) h).trans_lt hlt
  have hlength : (List.range 64).findIdx x.testBit < (List.range 64).length := by
    rw [List.length_range]
    exact (not_le.mp hk).trans ((Nat.pow_lt_pow_iff_right (by decide)).mp hpow)
  have hset : x.testBit (countTrailingZeros x) = true := by
    have hfound := List.findIdx_getElem (p := x.testBit) (w := hlength)
    rwa [List.getElem_range] at hfound
  obtain ⟨y, rfl⟩ := h
  rw [Nat.testBit_two_pow_mul] at hset
  simp [hk] at hset

theorem two_pow_dvd_of_le {a b x : Nat} (hle : 2 ^ a ≤ 2 ^ b) (h : 2 ^ b ∣ x) : 2 ^ a ∣ x :=
  (Nat.pow_dvd_pow 2 ((Nat.pow_le_pow_iff_right (by decide)).mp hle)).trans h

theorem sub_and_dvd (size k : Nat) : 2 ^ k ∣ size + 2 ^ k - (size &&& (2 ^ k - 1)) := by
  rw [Nat.and_two_pow_sub_one_eq_mod]
  have hmod := Nat.mod_lt size (Nat.two_pow_pos k)
  have hdiv := Nat.div_add_mod size (2 ^ k)
  refine ⟨size / 2 ^ k + 1, ?_⟩
  rw [Nat.mul_add, Nat.mul_one]
  omega

end Alignment
