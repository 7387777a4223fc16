import Ucg.Lib.Segments

/-! `Match`, the text of one matched line, and the line counter that numbers it. -/

namespace Ucg

open Segments

abbrev Bytes := List UInt8

def newline : UInt8 := 10

structure Match where
  mLineNumber : Nat
  mPreMatch : Bytes
  mMatch : Bytes
  mPostMatch : Bytes
  deriving DecidableEq, Repr

/-- `std::find` over the reversed bytes before the match. -/
def lineStart (file : Bytes) (matchStartOffset : Nat) : Nat :=
  let distance := (file.take matchStartOffset).reverse.idxOf newline
  if distance = matchStartOffset then 0 else matchStartOffset - distance

/-- `std::find` from the match to the end of the array. -/
def lineEnd (file : Bytes) (matchStartOffset : Nat) : Nat :=
  matchStartOffset + (file.drop matchStartOffset).idxOf newline

/-- The constructor `Match::Match`. `none` is the `std::length_error` of forming
`m_post_match` from a range that ends before it begins. -/
def Match.new? (file : Bytes) (matchStartOffset matchEndOffset lineNumber : Nat) : Option Match :=
  if lineEnd file matchStartOffset < matchEndOffset then none
  else some {
    mLineNumber := lineNumber
    mPreMatch := slice file (lineStart file matchStartOffset) matchStartOffset
    mMatch := slice file matchStartOffset matchEndOffset
    mPostMatch := slice file matchEndOffset (lineEnd file matchStartOffset) }

/-- `m` shows the match `[s, e)` with its true line number, inside the maximal
newline-free segment around it. -/
structure Match.IsAt (file : Bytes) (m : Match) (s e : Nat) : Prop where
  lineNumber : m.mLineNumber = lineOf newline file s
  matched : m.mMatch = slice file s e
  around : ∃ a b, IsSegment newline file a b ∧ a ≤ s ∧ e ≤ b ∧
    m.mPreMatch = slice file a s ∧ m.mPostMatch = slice file e b

theorem getElem?_ne_of_lt_idxOf {l : Bytes} {c : UInt8} {i : Nat} (h : i < l.idxOf c) :
    l[i]? ≠ some c := by
  induction l generalizing i with
  | nil => simp
  | cons x xs ih =>
    by_cases hx : x = c
    · simp [hx] at h
    · cases i with
      | zero => simpa using hx
      | succ i =>
        rw [List.idxOf_cons_ne xs hx] at h
        simpa using ih (by omega)

theorem getElem?_idxOf_of_lt {l : Bytes} {c : UInt8} (h : l.idxOf c < l.length) :
    l[l.idxOf c]? = some c := by
  rw [List.getElem?_eq_some_iff]
  exact ⟨h, List.getElem_idxOf h⟩

theorem lineEnd_spec {file : Bytes} {s : Nat} (hs : s ≤ file.length) :
    s ≤ lineEnd file s ∧ lineEnd file s ≤ file.length ∧ SepFree newline file s (lineEnd file s) ∧
      (lineEnd file s = file.length ∨ file[lineEnd file s]? = some newline) := by
  have hdrop : ∀ i, (file.drop s)[i]? = file[s + i]? := fun i => List.getElem?_drop
  have hlen : (file.drop s).length = file.length - s := List.length_drop
  have hle : (file.drop s).idxOf newline ≤ file.length - s :=
    Nat.le_trans List.idxOf_le_length (Nat.le_of_eq hlen)
  unfold lineEnd
  refine ⟨Nat.le_add_right _ _, by omega, fun i hi hi' => ?_, ?_⟩
  · have hne := getElem?_ne_of_lt_idxOf (show i - s < (file.drop s).idxOf newline by omega)
    rwa [hdrop, show s + (i - s) = i by omega] at hne
  · rcases Nat.lt_or_eq_of_le hle with hlt | heq
    · right
      rw [← hdrop]
      exact getElem?_idxOf_of_lt (by omega)
    · left
      omega

theorem lineStart_spec {file : Bytes} {s : Nat} (hs : s ≤ file.length) :
    lineStart file s ≤ s ∧ SepFree newline file (lineStart file s) s ∧
      (lineStart file s = 0 ∨ file[lineStart file s - 1]? = some newline) := by
  have hrev : ∀ i, i < s → (file.take s).reverse[s - 1 - i]? = file[i]? := by
    intro i hi
    rw [List.getElem?_reverse (by simp; omega), List.getElem?_take]
    simp only [List.length_take, Nat.min_eq_left hs, show s - 1 - (s - 1 - i) = i by omega,
      if_pos hi]
  have hlen : (file.take s).reverse.length = s := by simp [Nat.min_eq_left hs]
  have hle : (file.take s).reverse.idxOf newline ≤ s :=
    Nat.le_trans List.idxOf_le_length (Nat.le_of_eq hlen)
  have hstart : lineStart file s = s - (file.take s).reverse.idxOf newline := by
    simp only [lineStart]
    split <;> omega
  rw [hstart]
  refine ⟨Nat.sub_le _ _, fun i hi hi' => ?_, ?_⟩
  · rw [← hrev i hi']
    exact getElem?_ne_of_lt_idxOf (by omega)
  · rcases Nat.lt_or_eq_of_le hle with hlt | heq
    · right
      rw [← hrev _ (by omega), show s - 1 - (s - (file.take s).reverse.idxOf newline - 1) =
        (file.take s).reverse.idxOf newline by omega]
      exact getElem?_idxOf_of_lt (by omega)
    · left
      omega

theorem isSegment_lineStart_lineEnd {file : Bytes} {s : Nat} (hs : s ≤ file.length) :
    IsSegment newline file (lineStart file s) (lineEnd file s) ∧
      lineStart file s ≤ s ∧ s ≤ lineEnd file s := by
  obtain ⟨hstart, hbefore, hstarts⟩ := lineStart_spec hs
  obtain ⟨hend, hlen, hbehind, hends⟩ := lineEnd_spec hs
  have hsegment : IsSegment newline file (lineStart file s) (lineEnd file s) :=
    ⟨Nat.le_trans hstart hend, hlen, hbefore.append hbehind, hstarts, hends⟩
  exact ⟨hsegment, hstart, hend⟩

theorem lineEnd_lt_iff {file : Bytes} {s e : Nat} (hs : s ≤ file.length) (he : e ≤ file.length) :
    lineEnd file s < e ↔ ¬ SepFree newline file s e := by
  obtain ⟨hseg, -, hle⟩ := isSegment_lineStart_lineEnd hs
  constructor
  · intro h hfree
    rcases hseg.ends with hend | hend
    · omega
    · exact hfree _ hle h hend
  · intro h
    by_contra hge
    exact h ((hseg.free).mono (isSegment_lineStart_lineEnd hs).2.1 (by omega))

theorem Match.new?_eq_none_iff {file : Bytes} {s e n : Nat} (hs : s ≤ file.length)
    (he : e ≤ file.length) : Match.new? file s e n = none ↔ ¬ SepFree newline file s e := by
  rw [← lineEnd_lt_iff hs he, Match.new?]
  split <;> simp_all

theorem Match.isAt_of_new? {file : Bytes} {s e : Nat} {m : Match} (hs : s ≤ file.length)
    (h : Match.new? file s e (lineOf newline file s) = some m) : m.IsAt file s e := by
  obtain ⟨hseg, hstart, -⟩ := isSegment_lineStart_lineEnd hs
  rw [Match.new?] at h
  split at h
  · simp at h
  · rename_i hle
    obtain rfl := Option.some.inj h
    exact ⟨rfl, rfl, _, _, hseg, hstart, Nat.le_of_not_lt hle, rfl, rfl⟩

theorem Match.IsAt.line_eq {file : Bytes} {m : Match} {s e : Nat} (h : m.IsAt file s e)
    (hse : s ≤ e) : ∃ a b, IsSegment newline file a b ∧ a ≤ s ∧ e ≤ b ∧
      m.mPreMatch ++ m.mMatch ++ m.mPostMatch = slice file a b ∧ m.mPreMatch.length = s - a := by
  obtain ⟨a, b, hseg, has, heb, hpre, hpost⟩ := h.around
  refine ⟨a, b, hseg, has, heb, ?_, ?_⟩
  · rw [hpre, h.matched, hpost, slice_append has hse, slice_append (Nat.le_trans has hse) heb]
  · rw [hpre, length_slice (Nat.le_trans hse (Nat.le_trans heb hseg.le_length))]

theorem Match.IsAt.start_unique {file : Bytes} {m : Match} {s e s' e' : Nat} (hse : s ≤ e)
    (hse' : s' ≤ e') (h : m.IsAt file s e) (h' : m.IsAt file s' e') : s = s' := by
  obtain ⟨a, b, hseg, has, heb, -, hlen⟩ := h.line_eq hse
  obtain ⟨a', b', hseg', has', heb', -, hlen'⟩ := h'.line_eq hse'
  have hline := h.lineNumber.symm.trans h'.lineNumber
  have hmem : a' ≤ s ∧ s ≤ b' := by
    rcases Nat.le_total s s' with hle | hle
    · have hfree := (lineOf_eq_iff hle).mp hline
      refine ⟨?_, by omega⟩
      by_contra hlt
      rcases hseg'.starts with h0 | h0
      · omega
      · exact hfree (a' - 1) (by omega) (by omega) h0
    · have hfree := (lineOf_eq_iff hle).mp hline.symm
      refine ⟨by omega, ?_⟩
      by_contra hlt
      rcases hseg'.ends with h0 | h0
      · have := hseg.le_length
        omega
      · exact hfree b' (by omega) (by omega) h0
  obtain ⟨rfl, -⟩ := hseg.eq_of_mem hseg' has (by omega) hmem.1 hmem.2
  omega

def countLinesLoop (file : Bytes) (startOfCurrentMatch : Nat) : Nat → Nat → Nat
  | 0, _ => 0
  | rounds + 1, lastPtr =>
    match (slice file lastPtr startOfCurrentMatch).idxOf? newline with
    | some i => countLinesLoop file startOfCurrentMatch rounds (lastPtr + i + 1) + 1
    | none => 0

def countLinesSinceLastMatchDefault (file : Bytes)
    (prevLinenoSearchEnd startOfCurrentMatch : Nat) : Nat :=
  countLinesLoop file startOfCurrentMatch (startOfCurrentMatch - prevLinenoSearchEnd + 1)
    prevLinenoSearchEnd

theorem countLinesLoop_eq {file : Bytes} {e rounds p : Nat} (he : e ≤ file.length)
    (hp : p ≤ e) (hr : e - p < rounds) :
    lineOf newline file p + countLinesLoop file e rounds p = lineOf newline file e := by
  induction rounds generalizing p with
  | zero => omega
  | succ rounds ih =>
    rw [countLinesLoop]
    split
    · rename_i i hi
      obtain ⟨hlt, hat, hbefore⟩ := List.idxOf?_eq_some_iff.mp hi
      have hlen := length_slice (a := p) he
      have hnl : file[p + i]? = some newline := by
        have hs : (slice file p e)[i]? = some newline := by
          rw [List.getElem?_eq_some_iff]
          exact ⟨hlt, hat⟩
        rw [getElem?_slice] at hs
        split at hs
        · exact hs
        · simp at hs
      have hfree : SepFree newline file p (p + i) := by
        intro j hj hj' h
        refine hbefore (j - p) (by omega) ?_
        have hs : (slice file p e)[j - p]? = some newline := by
          rw [getElem?_slice, if_pos (by omega), show p + (j - p) = j by omega, h]
        exact (List.getElem?_eq_some_iff.mp hs).2
      have hsame := (lineOf_eq_iff (by omega)).mpr hfree
      have hnext := lineOf_succ newline file (p + i)
      rw [if_pos hnl] at hnext
      have := ih (p := p + i + 1) (by omega) (by omega)
      omega
    · rename_i hnone
      have hfree : SepFree newline file p e :=
        sepFree_iff_not_mem.mpr (List.idxOf?_eq_none_iff.mp hnone)
      simpa using (lineOf_eq_iff hp).mpr hfree

theorem lineOf_add_countLines {file : Bytes} {p e : Nat} (hp : p ≤ e) (he : e ≤ file.length) :
    lineOf newline file p + countLinesSinceLastMatchDefault file p e = lineOf newline file e :=
  countLinesLoop_eq he hp (by omega)

end Ucg
