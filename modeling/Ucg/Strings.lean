import Mathlib.Data.List.Lex
import Mathlib.Data.List.Infix
import Mathlib.Data.List.TakeWhile
import Ucg.Match

/-! The string functions of the option and file type code, on the bytes of C strings. -/

namespace Ucg

namespace ByteOrder

/-- `std::string` compares bytes as `unsigned char`. -/
scoped instance linearOrderUInt8 : LinearOrder UInt8 where
  le_refl := UInt8.le_refl
  le_trans _ _ _ := UInt8.le_trans
  le_antisymm _ _ := UInt8.le_antisymm
  le_total := UInt8.le_total
  lt_iff_le_not_ge a b := by
    rw [UInt8.lt_iff_toNat_lt, UInt8.le_iff_toNat_le, UInt8.le_iff_toNat_le]
    omega
  toDecidableLE := inferInstance
  toDecidableLT := inferInstance
  toDecidableEq := inferInstance

-- One name for the instance, which is otherwise found by way of the order.
scoped instance lawfulBEqBytes : LawfulBEq Bytes := inferInstance

end ByteOrder

def str (s : String) : Bytes := s.toByteArray.data.toList

def nul : UInt8 := 0

/-- An argument, as `main` and the rc files give it. -/
structure CString where
  bytes : Bytes
  nulFree : nul ∉ bytes

def equalsSign : UInt8 := 61

def colon : UInt8 := 58

def comma : UInt8 := 44

def split (s : Bytes) (delimiter : UInt8) : List Bytes :=
  (s.splitOn delimiter).filter (· ≠ [])

def join (entries : List Bytes) (separator : Bytes) : Bytes :=
  entries.foldl (fun retval entry => (if retval ≠ [] then retval ++ separator else retval) ++ entry) []

structure IsField (d : UInt8) (x : Bytes) : Prop where
  ne_nil : x ≠ []
  delimiterFree : d ∉ x

section Split

variable {s part : Bytes} {d : UInt8}

theorem mem_of_mem_splitOn (h : part ∈ s.splitOn d) : ∀ c ∈ part, c ∈ s ∧ c ≠ d := by
  induction s generalizing part with
  | nil =>
    rw [List.splitOn_nil, List.mem_singleton] at h
    simp [h]
  | cons x xs ih =>
    rw [List.splitOn_cons_eq_if_modifyHead] at h
    by_cases hx : x = d
    · rw [if_pos (by simpa using hx)] at h
      rcases List.mem_cons.mp h with rfl | h
      · simp
      · exact fun c hc => (ih h c hc).imp_left (List.mem_cons_of_mem _)
    · rw [if_neg (by simpa using hx)] at h
      obtain ⟨first, rest, hsplit⟩ := List.exists_cons_of_ne_nil (List.splitOn_ne_nil d xs)
      rw [hsplit] at h ih
      rcases List.mem_cons.mp h with rfl | h
      · intro c hc
        rcases List.mem_cons.mp hc with rfl | hc
        · exact ⟨List.mem_cons_self, hx⟩
        · exact (ih List.mem_cons_self c hc).imp_left (List.mem_cons_of_mem _)
      · exact fun c hc => (ih (List.mem_cons_of_mem _ h) c hc).imp_left (List.mem_cons_of_mem _)

theorem delimiter_not_mem_takeWhile : d ∉ s.takeWhile (· ≠ d) := fun hmem => by
  simpa using List.mem_takeWhile_imp hmem

theorem mem_of_mem_split (h : part ∈ split s d) : ∀ c ∈ part, c ∈ s ∧ c ≠ d :=
  mem_of_mem_splitOn (List.mem_filter.mp h).1

theorem ne_nil_of_mem_split (h : part ∈ split s d) : part ≠ [] := by
  simpa using (List.mem_filter.mp h).2

theorem split_of_not_mem (hs : s ≠ []) (h : d ∉ s) : split s d = [s] := by
  simp [split, List.splitOn_eq_singleton h, hs]

theorem isField_of_mem_split (h : x ∈ split s d) : IsField d x :=
  ⟨ne_nil_of_mem_split h, fun hmem => (mem_of_mem_split h d hmem).2 rfl⟩

theorem split_nil : split [] d = [] := by simp [split]

theorem split_append_cons_self (front s : Bytes) (d : UInt8) :
    split (front ++ d :: s) d = split front d ++ split s d := by
  rw [split, List.splitOn_append_cons_self, List.filter_append]
  rfl

theorem split_append_cons {front : Bytes} (hfront : front ≠ []) (h : d ∉ front) :
    split (front ++ d :: s) d = front :: split s d := by
  rw [split_append_cons_self, split_of_not_mem hfront h, List.singleton_append]

theorem split_delimiter_cons : split (d :: s) d = split s d := by
  rw [← List.nil_append (d :: s), split_append_cons_self, split_nil, List.nil_append]

theorem dropWhile_cases (s : Bytes) (d : UInt8) :
    (s.dropWhile (· ≠ d) = [] ∧ s = s.takeWhile (· ≠ d)) ∨
      ∃ rest, s.dropWhile (· ≠ d) = d :: rest ∧ s = s.takeWhile (· ≠ d) ++ d :: rest := by
  have happend := List.takeWhile_append_dropWhile (p := (· ≠ d)) (l := s)
  cases hdrop : s.dropWhile (· ≠ d) with
  | nil =>
    rw [hdrop, List.append_nil] at happend
    exact Or.inl ⟨rfl, happend.symm⟩
  | cons c rest =>
    have hhead := List.head?_dropWhile_not (· ≠ d) s
    rw [hdrop] at hhead
    have hc : c = d := by simpa using hhead
    rw [hdrop, hc] at happend
    exact Or.inr ⟨rest, by rw [hc], happend.symm⟩

end Split

end Ucg
