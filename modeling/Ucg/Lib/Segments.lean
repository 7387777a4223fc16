import Mathlib.Data.List.Basic
import Mathlib.Tactic.Common

/-! Lists cut into segments by a separator: slices, the number of the segment a position
lies in, and the maximal separator-free segments. -/

namespace Segments

variable {α : Type*}

def slice (l : List α) (a b : Nat) : List α := (l.take b).drop a

theorem getElem?_slice (l : List α) (a b i : Nat) :
    (slice l a b)[i]? = if a + i < b then l[a + i]? else none := by
  simp [slice, List.getElem?_drop, List.getElem?_take]

theorem length_slice {l : List α} {a b : Nat} (hb : b ≤ l.length) :
    (slice l a b).length = b - a := by
  simp [slice, Nat.min_eq_left hb]

theorem mem_slice {l : List α} {a b : Nat} {x : α} :
    x ∈ slice l a b ↔ ∃ i, a ≤ i ∧ i < b ∧ l[i]? = some x := by
  rw [List.mem_iff_getElem?]
  constructor
  · rintro ⟨i, hi⟩
    rw [getElem?_slice] at hi
    split at hi
    · exact ⟨a + i, by omega, by assumption, hi⟩
    · simp at hi
  · rintro ⟨i, ha, hb, hi⟩
    refine ⟨i - a, ?_⟩
    rw [getElem?_slice, if_pos (by omega), show a + (i - a) = i by omega]
    exact hi

theorem slice_append {l : List α} {a b c : Nat} (hab : a ≤ b) (hbc : b ≤ c) :
    slice l a b ++ slice l b c = slice l a c := by
  apply List.ext_getElem?
  intro i
  rw [List.getElem?_append]
  by_cases hb : b ≤ l.length
  · rw [length_slice hb]
    split
    · simp only [getElem?_slice, if_pos (show a + i < b by omega), if_pos (show a + i < c by omega)]
    · simp only [getElem?_slice, show b + (i - (b - a)) = a + i by omega]
  · have hl : slice l b c = [] := by
      simp only [slice, List.drop_eq_nil_iff, List.length_take]
      omega
    have ht : l.take b = l.take c := by
      rw [List.take_of_length_le (by omega), List.take_of_length_le (by omega)]
    simp only [hl, List.getElem?_nil]
    simp only [slice, ht]
    split
    · rfl
    · simp only [List.length_drop, List.length_take] at *
      rw [List.getElem?_eq_none (by simp only [List.length_drop, List.length_take]; omega)]

variable (sep : α)

def SepFree (l : List α) (a b : Nat) : Prop := ∀ i, a ≤ i → i < b → l[i]? ≠ some sep

/-- `[a, b)` is a maximal separator-free segment. -/
structure IsSegment (l : List α) (a b : Nat) : Prop where
  le : a ≤ b
  le_length : b ≤ l.length
  free : SepFree sep l a b
  starts : a = 0 ∨ l[a - 1]? = some sep
  ends : b = l.length ∨ l[b]? = some sep

variable {sep}

theorem sepFree_iff_not_mem {l : List α} {a b : Nat} :
    SepFree sep l a b ↔ sep ∉ slice l a b := by
  simp only [SepFree, mem_slice]
  constructor
  · rintro h ⟨i, ha, hb, hi⟩
    exact h i ha hb hi
  · intro h i ha hb hi
    exact h ⟨i, ha, hb, hi⟩

theorem SepFree.mono {l : List α} {a b c d : Nat} (h : SepFree sep l a b) (hac : a ≤ c)
    (hdb : d ≤ b) : SepFree sep l c d :=
  fun i hi hi' => h i (by omega) (by omega)

theorem SepFree.append {l : List α} {a b c : Nat} (h : SepFree sep l a b)
    (h' : SepFree sep l b c) : SepFree sep l a c := by
  intro i hi hi'
  by_cases hb : i < b
  · exact h i hi hb
  · exact h' i (by omega) hi'

theorem IsSegment.eq_of_mem {l : List α} {a b a' b' p : Nat} (h : IsSegment sep l a b)
    (h' : IsSegment sep l a' b') (hap : a ≤ p) (hpb : p ≤ b) (hap' : a' ≤ p) (hpb' : p ≤ b') :
    a = a' ∧ b = b' := by
  constructor
  · rcases Nat.lt_trichotomy a a' with hlt | heq | hgt
    · rcases h'.starts with hs | hs
      · omega
      · exact (h.free (a' - 1) (by omega) (by omega) hs).elim
    · exact heq
    · rcases h.starts with hs | hs
      · omega
      · exact (h'.free (a - 1) (by omega) (by omega) hs).elim
  · rcases Nat.lt_trichotomy b b' with hlt | heq | hgt
    · rcases h.ends with he | he
      · have := h'.le_length
        omega
      · exact (h'.free b (by omega) hlt he).elim
    · exact heq
    · rcases h'.ends with he | he
      · have := h.le_length
        omega
      · exact (h.free b' (by omega) hgt he).elim

theorem IsSegment.start_eq {l : List α} {a b start p : Nat} (h : IsSegment sep l a b)
    (hfree : SepFree sep l start p) (hstart : start ≤ a) (ha : a ≤ p) : a = start := by
  rcases h.starts with h0 | hs
  · omega
  · by_contra hne
    exact hfree (a - 1) (by omega) (by omega) hs

theorem append_inj_of_sepFree {x y rest rest' : List α} (hx : sep ∉ x) (hy : sep ∉ y)
    (hrest : ∀ c ∈ rest.head?, c = sep) (hrest' : ∀ c ∈ rest'.head?, c = sep)
    (h : x ++ rest = y ++ rest') : x = y ∧ rest = rest' := by
  rcases List.append_eq_append_iff.mp h with ⟨mid, rfl, rfl⟩ | ⟨mid, rfl, rfl⟩
  · cases mid with
    | nil => simp
    | cons c mid =>
      obtain rfl := hrest c rfl
      simp at hy
  · cases mid with
    | nil => simp
    | cons c mid =>
      obtain rfl := hrest' c rfl
      simp at hx

/-- A list in which each part begins with a separator can be cut in one way only. -/
theorem eq_of_flatMap_sep {xs ys : List (List α)} (hx : ∀ x ∈ xs, sep ∉ x) (hy : ∀ y ∈ ys, sep ∉ y)
    (h : xs.flatMap (sep :: ·) = ys.flatMap (sep :: ·)) : xs = ys := by
  have hhead (l : List (List α)) : ∀ c ∈ (l.flatMap (sep :: ·)).head?, c = sep := by
    cases l with
    | nil => exact fun c hc => by cases hc
    | cons x l => exact fun c hc => (Option.some.inj hc).symm
  induction xs generalizing ys with
  | nil =>
    cases ys with
    | nil => rfl
    | cons y ys => simp at h
  | cons x xs ih =>
    cases ys with
    | nil => simp at h
    | cons y ys =>
      obtain ⟨hx, hxs⟩ := List.forall_mem_cons.mp hx
      obtain ⟨hy, hys⟩ := List.forall_mem_cons.mp hy
      simp only [List.flatMap_cons, List.cons_append, List.cons.injEq, true_and] at h
      obtain ⟨rfl, hrest⟩ := append_inj_of_sepFree hx hy (hhead xs) (hhead ys) h
      rw [ih hxs hys hrest]

variable [DecidableEq α] (sep)

/-- The number of the segment position `p` lies in, counted from one. A separator
lies in the segment it ends. -/
def lineOf (l : List α) (p : Nat) : Nat := 1 + (l.take p).count sep

/-- The number of segments, where a final separator ends the last one. -/
def numLines (l : List α) : Nat :=
  l.count sep + if l.getLast? = none ∨ l.getLast? = some sep then 0 else 1

variable {sep}

theorem lineOf_pos (sep : α) (l : List α) (p : Nat) : 0 < lineOf sep l p := by
  simp only [lineOf]
  omega

theorem lineOf_zero (sep : α) (l : List α) : lineOf sep l 0 = 1 := by simp [lineOf]

theorem lineOf_succ (sep : α) (l : List α) (p : Nat) :
    lineOf sep l (p + 1) = lineOf sep l p + if l[p]? = some sep then 1 else 0 := by
  simp only [lineOf, List.take_add_one, List.count_append]
  cases h : l[p]? with
  | none => simp
  | some x =>
    simp only [Option.toList_some, List.count_singleton, Option.some.injEq, beq_iff_eq]
    omega

theorem lineOf_add_count_slice {l : List α} {p q : Nat} (h : p ≤ q) :
    lineOf sep l q = lineOf sep l p + (slice l p q).count sep := by
  have hs : slice l 0 p ++ slice l p q = slice l 0 q := slice_append (Nat.zero_le _) h
  have hc := congrArg (List.count sep) hs
  simp only [List.count_append] at hc
  simp only [lineOf]
  simp only [slice, List.drop_zero] at hc ⊢
  omega

theorem lineOf_mono (sep : α) (l : List α) {p q : Nat} (h : p ≤ q) :
    lineOf sep l p ≤ lineOf sep l q := by
  rw [lineOf_add_count_slice h]
  exact Nat.le_add_right _ _

theorem lineOf_eq_iff {l : List α} {p q : Nat} (h : p ≤ q) :
    lineOf sep l p = lineOf sep l q ↔ SepFree sep l p q := by
  rw [lineOf_add_count_slice h, sepFree_iff_not_mem, ← List.count_eq_zero]
  omega

theorem lineOf_lt_of_sep {l : List α} {p q r : Nat} (hpq : p ≤ q) (hqr : q < r)
    (h : l[q]? = some sep) : lineOf sep l p < lineOf sep l r := by
  have h₁ := lineOf_mono sep l hpq
  have h₂ := lineOf_mono sep l (show q + 1 ≤ r from hqr)
  have h₃ := lineOf_succ sep l q
  rw [if_pos h] at h₃
  omega

theorem lineOf_length (l : List α) : lineOf sep l l.length = l.count sep + 1 := by
  simp [lineOf, Nat.add_comm]

theorem lineOf_le_numLines {l : List α} {p : Nat} (h : p < l.length) :
    lineOf sep l p ≤ numLines sep l := by
  have hne : l ≠ [] := by rintro rfl; simp at h
  have hlast : l.getLast? = l[l.length - 1]? := List.getLast?_eq_getElem?
  have hmono := lineOf_mono sep l (show p ≤ l.length - 1 by omega)
  have hsucc := lineOf_succ sep l (l.length - 1)
  rw [Nat.sub_add_cancel (by omega), lineOf_length] at hsucc
  simp only [numLines]
  by_cases hs : l[l.length - 1]? = some sep
  · rw [if_pos hs] at hsucc
    rw [if_pos (by simp [hlast, hs])]
    omega
  · rw [if_neg hs] at hsucc
    rw [if_neg (by rw [hlast]; simp [hs]; omega)]
    omega

theorem lineOf_length_le_numLines_iff (l : List α) :
    lineOf sep l l.length ≤ numLines sep l ↔ l ≠ [] ∧ l.getLast? ≠ some sep := by
  rw [lineOf_length, numLines]
  cases h : l.getLast? with
  | none => simp [List.getLast?_eq_none_iff.mp h]
  | some x =>
    have hne : l ≠ [] := by rintro rfl; simp at h
    by_cases hx : x = sep <;> simp [hx, hne]

variable (sep) in
/-- The bounds of the segments from `p` on, where `l` is what is left of the list and the first of
them has begun at `start`. -/
def segmentBounds (start p : Nat) : List α → List (Nat × Nat)
  | [] => [(start, p)]
  | x :: l =>
    if x = sep then (start, p) :: segmentBounds (p + 1) (p + 1) l else segmentBounds start (p + 1) l

theorem mem_segmentBounds {l : List α} {start p a b k : Nat} (hstart : start ≤ p) (hp : p ≤ l.length)
    (hfree : SepFree sep l start p) (hstarts : start = 0 ∨ l[start - 1]? = some sep) :
    ((a, b), k) ∈ (segmentBounds sep start p (l.drop p)).zipIdx (lineOf sep l start) ↔
      IsSegment sep l a b ∧ start ≤ a ∧ lineOf sep l a = k := by
  induction hrest : l.drop p generalizing start p with
  | nil =>
    have hlength := List.drop_eq_nil_iff.mp hrest
    simp only [segmentBounds, List.zipIdx_cons, List.zipIdx_nil, List.mem_singleton, Prod.mk.injEq]
    constructor
    · rintro ⟨⟨rfl, rfl⟩, rfl⟩
      exact ⟨⟨hstart, hp, hfree, hstarts, Or.inl (by omega)⟩, (Nat.le_refl _), rfl⟩
    · rintro ⟨hseg, hle, rfl⟩
      have hb := hseg.le_length
      obtain rfl := hseg.start_eq hfree hle (by have := hseg.le; omega)
      refine ⟨⟨rfl, ?_⟩, rfl⟩
      rcases hseg.ends with he | he
      · omega
      · have := (List.getElem?_eq_some_iff.mp he).1
        by_contra hne
        exact hfree b hseg.le (by omega) he
  | cons x rest ih =>
    have hx : l[p]? = some x := by
      have hdrop : (l.drop p)[0]? = l[p + 0]? := List.getElem?_drop
      simpa [hrest] using hdrop.symm
    have hlt := (List.getElem?_eq_some_iff.mp hx).1
    have hrest' : l.drop (p + 1) = rest := by
      rw [← List.drop_drop, hrest, List.drop_one, List.tail_cons]
    by_cases hsep : x = sep
    · have hseg : IsSegment sep l start p := ⟨hstart, hp, hfree, hstarts, Or.inr (hsep ▸ hx)⟩
      have hline : lineOf sep l (p + 1) = lineOf sep l start + 1 := by
        rw [lineOf_succ, if_pos (hsep ▸ hx), (lineOf_eq_iff hstart).mpr hfree]
      have hfree' : SepFree sep l (p + 1) (p + 1) := fun i hi hi' => by omega
      have ih := ih (Nat.le_refl _) hlt hfree' (Or.inr (hsep ▸ hx)) hrest'
      rw [hline] at ih
      rw [segmentBounds, if_pos hsep, List.zipIdx_cons, List.mem_cons, ih]
      constructor
      · rintro (heq | ⟨hseg', hle, hk⟩)
        · simp only [Prod.mk.injEq] at heq
          obtain ⟨⟨rfl, rfl⟩, rfl⟩ := heq
          exact ⟨hseg, (Nat.le_refl _), rfl⟩
        · exact ⟨hseg', by omega, hk⟩
      · rintro ⟨hseg', hle, rfl⟩
        by_cases ha : a ≤ p
        · obtain ⟨rfl, rfl⟩ := hseg'.eq_of_mem hseg (Nat.le_refl _) hseg'.le hle ha
          exact Or.inl rfl
        · exact Or.inr ⟨hseg', by omega, rfl⟩
    · have hfree' : SepFree sep l start (p + 1) := hfree.append fun i hi hi' => by
        obtain rfl : i = p := by omega
        rw [hx, Ne, Option.some.injEq]
        exact hsep
      rw [segmentBounds, if_neg hsep]
      exact ih (by omega) hlt hfree' hstarts hrest'

variable (sep) in
/-- The bounds of all segments, with their numbers. -/
def numberedSegments (l : List α) : List ((Nat × Nat) × Nat) := (segmentBounds sep 0 0 l).zipIdx 1

theorem mem_numberedSegments {l : List α} {a b k : Nat} :
    ((a, b), k) ∈ numberedSegments sep l ↔ IsSegment sep l a b ∧ lineOf sep l a = k := by
  have hfree : SepFree sep l 0 0 := fun i hi hi' => by omega
  have hmem := mem_segmentBounds (a := a) (b := b) (k := k) (Nat.le_refl 0) (Nat.zero_le _) hfree (Or.inl rfl)
  rw [lineOf_zero, List.drop_zero] at hmem
  rw [numberedSegments, hmem]
  simp

theorem pairwise_numberedSegments (l : List α) :
    (numberedSegments sep l).Pairwise fun s s' => s.2 < s'.2 := by
  rw [← List.pairwise_map, numberedSegments, List.zipIdx_map_snd]
  exact List.pairwise_lt_range'

end Segments
