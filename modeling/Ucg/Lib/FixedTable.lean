import Mathlib.Tactic.Common

/-! A table of fixed size that is filled from its front. A write behind the end is a failure, so
that a run that returns a table has written inside of it only. -/

structure FixedTable (α : Type*) (n : Nat) where
  cells : Vector α n
  endIndex : Nat

namespace FixedTable

variable {α : Type*} {n : Nat} {t : FixedTable α n} {l : List α}

def push? (t : FixedTable α n) (v : α) : Option (FixedTable α n) :=
  if h : t.endIndex < n then some ⟨t.cells.set t.endIndex v h, t.endIndex + 1⟩ else none

/-- The entries written so far. -/
def entries (t : FixedTable α n) : List α := t.cells.toList.take t.endIndex

/-- What was written is `l`, and the next write goes behind it. -/
structure Holds (t : FixedTable α n) (l : List α) : Prop where
  endIndex : t.endIndex = l.length
  entries : t.entries = l

theorem Holds.start (cells : Vector α n) : Holds ⟨cells, 0⟩ [] := ⟨rfl, rfl⟩

theorem Holds.length_le (h : t.Holds l) : l.length ≤ n := by
  have hlength := congrArg List.length h.entries
  rw [FixedTable.entries, List.length_take, Vector.length_toList] at hlength
  omega

theorem Holds.push? (h : t.Holds l) (hl : l.length < n) (v : α) :
    ∃ t', t.push? v = some t' ∧ t'.Holds (l ++ [v]) := by
  have hend : t.endIndex < n := by
    rw [h.endIndex]
    exact hl
  refine ⟨_, dif_pos hend, ?_, ?_⟩
  · rw [List.length_append, List.length_singleton]
    exact congrArg (· + 1) h.endIndex
  · have hentries := h.entries
    rw [FixedTable.entries] at hentries ⊢
    rw [Vector.toList_set, List.take_add_one, List.take_set_of_le (Nat.le_refl _), hentries,
      List.getElem?_set_self (by simpa using hend)]
    rfl

end FixedTable
