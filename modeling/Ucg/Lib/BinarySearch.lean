import Mathlib.Data.List.Basic
import Mathlib.Order.Bounds.Basic

/-! `std::lower_bound` and `std::binary_search` on a sorted vector. -/

namespace BinarySearch

variable {α : Type*} [LinearOrder α]

/-- The loop of `std::lower_bound` on the `len` elements from `first` on. -/
def lowerBound (a : List α) (x : α) (first len : Nat) : Nat :=
  if 0 < len then
    if a[first + len / 2]?.any (· < x) then lowerBound a x (first + len / 2 + 1) (len - len / 2 - 1)
    else lowerBound a x first (len / 2)
  else first
termination_by len

def binarySearch (a : List α) (x : α) : Bool :=
  a[lowerBound a x 0 a.length]?.any fun y => !decide (x < y)

variable {a : List α} {x : α}

theorem le_of_getElem? (h : a.Pairwise (· ≤ ·)) {i j : Nat} {y z : α} (hij : i ≤ j)
    (hy : a[i]? = some y) (hz : a[j]? = some z) : y ≤ z := by
  obtain ⟨hi, rfl⟩ := List.getElem?_eq_some_iff.mp hy
  obtain ⟨hj, rfl⟩ := List.getElem?_eq_some_iff.mp hz
  rcases Nat.eq_or_lt_of_le hij with rfl | hlt
  · exact le_rfl
  · exact List.pairwise_iff_getElem.mp h i j hi hj hlt

theorem lowerBound_spec (h : a.Pairwise (· ≤ ·)) {first len : Nat} (hlen : first + len ≤ a.length)
    (hlow : ∀ i y, a[i]? = some y → i < first → y < x)
    (hhigh : ∀ i y, a[i]? = some y → first + len ≤ i → x ≤ y) :
    ∀ i y, a[i]? = some y → (i < lowerBound a x first len ↔ y < x) := by
  induction first, len using lowerBound.induct a x with
  | case1 first len hpos hmiddle ih =>
    rw [lowerBound, if_pos hpos, if_pos hmiddle]
    obtain ⟨z, hz⟩ : ∃ z, a[first + len / 2]? = some z :=
      ⟨_, List.getElem?_eq_getElem (by omega)⟩
    have hzx : z < x := by simpa [hz] using hmiddle
    refine ih (by omega) (fun i y hy hi => ?_) fun i y hy hi => hhigh i y hy (by omega)
    exact lt_of_le_of_lt (le_of_getElem? h (by omega) hy hz) hzx
  | case2 first len hpos hmiddle ih =>
    rw [lowerBound, if_pos hpos, if_neg hmiddle]
    refine ih (by omega) hlow fun i y hy hi => ?_
    obtain ⟨z, hz⟩ : ∃ z, a[first + len / 2]? = some z :=
      ⟨_, List.getElem?_eq_getElem (by omega)⟩
    have hzx : ¬ z < x := by simpa [hz] using hmiddle
    exact le_trans (not_lt.mp hzx) (le_of_getElem? h hi hz hy)
  | case3 first len hpos =>
    rw [lowerBound, if_neg hpos]
    intro i y hy
    refine ⟨hlow i y hy, fun hlt => ?_⟩
    by_contra hi
    exact absurd hlt (not_lt.mpr (hhigh i y hy (by omega)))

theorem binarySearch_iff_mem (h : a.Pairwise (· ≤ ·)) : binarySearch a x = true ↔ x ∈ a := by
  have hspec : ∀ i y, a[i]? = some y → (i < lowerBound a x 0 a.length ↔ y < x) := by
    refine lowerBound_spec h (by omega) (fun _ _ _ hi => absurd hi (Nat.not_lt_zero _)) ?_
    intro i y hy hi
    exact absurd (List.getElem?_eq_some_iff.mp hy).1 (by omega)
  rw [binarySearch]
  generalize lowerBound a x 0 a.length = r at hspec
  constructor
  · intro hfound
    cases hr : a[r]? with
    | none => simp [hr] at hfound
    | some y =>
      have hxy : ¬ x < y := by simpa [hr] using hfound
      have hyx : ¬ y < x := fun hlt => Nat.lt_irrefl r ((hspec r y hr).mpr hlt)
      rw [le_antisymm (not_lt.mp hyx) (not_lt.mp hxy)]
      exact List.mem_of_getElem? hr
  · intro hmem
    obtain ⟨j, hj⟩ := List.getElem?_of_mem hmem
    have hrj : r ≤ j := Nat.le_of_not_lt fun hlt => lt_irrefl x ((hspec j x hj).mp hlt)
    obtain ⟨y, hr⟩ : ∃ y, a[r]? = some y :=
      ⟨_, List.getElem?_eq_getElem (Nat.lt_of_le_of_lt hrj (List.getElem?_eq_some_iff.mp hj).1)⟩
    simpa [hr] using le_of_getElem? h hrj hr hj

end BinarySearch
