import Ucg.Lib.Search

/-! The sixteen-byte string comparisons of SSE4.2. A fragment is read from byte
addressed memory; lengths say how many elements of an operand are valid. -/

namespace Simd

open Search

abbrev Mem := Nat → UInt8

def lddqu (mem : Mem) (p : Nat) : Mem := fun i => mem (p + i)

def leastSignificant (bit : Nat → Bool) : Nat := first bit 16

/-- `PCMPESTRI`, equal any: the first valid byte that is in the set. -/
def cmpEqualAny (set : List UInt8) (frag : Mem) (lenFrag : Nat) : Nat :=
  leastSignificant fun i => decide (i < lenFrag) && set.contains (frag i)

/-- Membership in a list of inclusive pairs. A last bound without a partner is invalid. -/
def inRanges : List UInt8 → UInt8 → Bool
  | lo :: hi :: rest, c => (decide (lo ≤ c) && decide (c ≤ hi)) || inRanges rest c
  | _, _ => false

/-- `PCMPESTRI`, ranges: the first valid byte that lies in one of the pairs. -/
def cmpRanges (ranges : List UInt8) (frag : Mem) (lenFrag : Nat) : Nat :=
  leastSignificant fun i => decide (i < lenFrag) && inRanges ranges (frag i)

/-- One bit of `PCMPESTRI`, equal ordered: the pattern matches at `i` as far as the
register reaches. A valid pattern byte never matches an invalid fragment byte. -/
def equalOrderedAt (pattern : List UInt8) (frag : Mem) (lenFrag i : Nat) : Bool :=
  (List.range (16 - i)).all fun j =>
    match pattern[j]? with
    | some c => decide (i + j < lenFrag) && frag (i + j) == c
    | none => true

def cmpEqualOrdered (pattern : List UInt8) (frag : Mem) (lenFrag : Nat) : Nat :=
  leastSignificant (equalOrderedAt pattern frag lenFrag)

def equalMask (c : UInt8) (frag : Mem) : Nat → Bool := fun i => frag i == c

def findFirstSetBit (mask : Nat → Bool) : Nat :=
  if leastSignificant mask < 16 then leastSignificant mask + 1 else 0

theorem isFirst_leastSignificant (bit : Nat → Bool) :
    IsFirst (fun i => bit i = true) 16 (leastSignificant bit) := isFirst_first bit 16

theorem equalOrderedAt_iff {pattern : List UInt8} {frag : Mem} {lenFrag i : Nat} :
    equalOrderedAt pattern frag lenFrag i = true ↔
      ∀ j c, i + j < 16 → pattern[j]? = some c → i + j < lenFrag ∧ frag (i + j) = c := by
  simp only [equalOrderedAt, List.all_eq_true, List.mem_range]
  constructor
  · intro h j c hj hc
    have hh := h j (by omega)
    simpa [hc] using hh
  · intro h j hj
    cases hc : pattern[j]? with
    | none => rfl
    | some c => simpa using h j c (by omega) hc

end Simd
