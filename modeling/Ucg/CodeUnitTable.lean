import Ucg.Lib.Simd
import Ucg.Match

/-! The tables of possible first bytes and the vectorised searches that use them to skip
over text in which no match can start. -/

namespace Ucg

open Simd Search

/-- The test of bit `i` in the bitmap of `PCRE2_INFO_FIRSTBITMAP`. -/
def bitIsSet (pcre2Bitmap : Nat → UInt8) (i : Nat) : Bool :=
  (pcre2Bitmap (i / 8)).toNat &&& (1 <<< (i % 8)) != 0

/-- The valid entries of `m_compiled_cu_bitmap`, in the order they are written. -/
def constructCodeUnitTable (pcre2Bitmap : Nat → UInt8) : Bytes :=
  (List.range 256).foldl
    (fun table i => if bitIsSet pcre2Bitmap i then table ++ [UInt8.ofNat i] else table) []

structure RangePairs where
  table : Bytes
  firstRangeChar : UInt8
  lastRangeChar : UInt8

def RangePairs.next (p : RangePairs) (c : UInt8) : RangePairs :=
  if c.toNat = p.lastRangeChar.toNat + 1 then { p with lastRangeChar := p.lastRangeChar + 1 }
  else
    { table := p.table ++ [p.firstRangeChar, p.lastRangeChar]
      firstRangeChar := c
      lastRangeChar := c }

/-- The valid entries of `m_compiled_range_bitmap`. -/
def constructRangePairTable : Bytes → Bytes
  | [] => []
  | c :: cs =>
    let p := cs.foldl RangePairs.next ⟨[], c, c⟩
    p.table ++ [p.firstRangeChar, p.lastRangeChar]

def findBlock (c : UInt8) (mem : Mem) (cbegin len b : Nat) : Option Nat :=
  let matchBitmask := equalMask c (lddqu mem (cbegin + 16 * b))
  let lowestBit := findFirstSetBit matchBitmask
  if 0 < lowestBit ∧ 16 * b + lowestBit - 1 < len then some (min (16 * b + lowestBit - 1) len)
  else none

/-- `FileScanner::find`, as an offset from `cbegin`. -/
def find (c : UInt8) (mem : Mem) (cbegin len : Nat) : Nat :=
  ((List.range ((len + 15) / 16)).findSome? (findBlock c mem cbegin len)).getD len

/-- One block of `find_first_of` and `find_first_in_ranges`: the compare-to table in
registers of sixteen entries, then its last partial register. -/
def tableBlock (cmp : Bytes → Mem → Nat → Nat) (table : Bytes) (mem : Mem) (cbegin len b : Nat) :
    Option Nat :=
  let hit (register : Bytes) : Option Nat :=
    let lsbSet := cmp register (lddqu mem (cbegin + 16 * b)) (min (len - 16 * b) 16)
    if lsbSet < 16 then some (min (16 * b + lsbSet) len) else none
  let full := table.length / 16
  match (List.range full).findSome? fun j => hit ((table.drop (16 * j)).take 16) with
  | some r => some r
  | none => if 16 * full < table.length then hit (table.drop (16 * full)) else none

def tableSearch (cmp : Bytes → Mem → Nat → Nat) (table : Bytes) (mem : Mem) (cbegin len : Nat) : Nat :=
  ((List.range ((len + 15) / 16)).findSome? (tableBlock cmp table mem cbegin len)).getD len

def findFirstOf (compiledCuBitmap : Bytes) : Mem → Nat → Nat → Nat :=
  tableSearch cmpEqualAny compiledCuBitmap

def findFirstInRanges (compiledRangeBitmap : Bytes) : Mem → Nat → Nat → Nat :=
  tableSearch cmpRanges compiledRangeBitmap

def findFirstPossibleCodeUnitDefault (compiledCuBitmap : Bytes) (mem : Mem) (cbegin len : Nat) : Nat :=
  match compiledCuBitmap with
  | [] => len
  | [c] => find c mem cbegin len
  | _ => findFirstOf compiledCuBitmap mem cbegin len

theorem constructCodeUnitTable_eq (pcre2Bitmap : Nat → UInt8) : constructCodeUnitTable pcre2Bitmap =
    ((List.range 256).filter (bitIsSet pcre2Bitmap)).map UInt8.ofNat := by
  have hfold : ∀ n, (List.range n).foldl
      (fun table i => if bitIsSet pcre2Bitmap i then table ++ [UInt8.ofNat i] else table) [] =
      ((List.range n).filter (bitIsSet pcre2Bitmap)).map UInt8.ofNat := by
    intro n
    induction n with
    | zero => rfl
    | succ n ih =>
      rw [List.range_succ, List.foldl_append, ih, List.filter_append, List.map_append]
      by_cases h : bitIsSet pcre2Bitmap n <;> simp [h]
  exact hfold 256

theorem mem_constructCodeUnitTable {pcre2Bitmap : Nat → UInt8} {c : UInt8} :
    c ∈ constructCodeUnitTable pcre2Bitmap ↔ bitIsSet pcre2Bitmap c.toNat = true := by
  rw [constructCodeUnitTable_eq]
  simp only [List.mem_map, List.mem_filter, List.mem_range]
  constructor
  · rintro ⟨i, ⟨hi, hbit⟩, rfl⟩
    rwa [UInt8.toNat_ofNat', Nat.mod_eq_of_lt hi]
  · intro h
    exact ⟨c.toNat, ⟨c.toNat_lt, h⟩, UInt8.ofNat_toNat⟩

theorem inRanges_append {pairs : List (UInt8 × UInt8)} {rest : Bytes} {c : UInt8} :
    inRanges (pairs.flatMap (fun p => [p.1, p.2]) ++ rest) c =
      (pairs.any (fun p => decide (p.1 ≤ c) && decide (c ≤ p.2)) || inRanges rest c) := by
  induction pairs with
  | nil => simp
  | cons p ps ih => simp [inRanges, ih, Bool.or_assoc]

theorem toNat_add_one {c : UInt8} (h : c.toNat < 255) : (c + 1).toNat = c.toNat + 1 := by
  have hone : (1 : UInt8).toNat = 1 := rfl
  rw [UInt8.toNat_add, hone, Nat.mod_eq_of_lt (by omega)]

structure RangePairs.Covers (p : RangePairs) (seen : Bytes) : Prop where
  paired : ∃ pairs : List (UInt8 × UInt8), p.table = pairs.flatMap fun q => [q.1, q.2]
  ordered : p.firstRangeChar ≤ p.lastRangeChar
  seen : ∀ c ∈ seen, inRanges (p.table ++ [p.firstRangeChar, p.lastRangeChar]) c = true

theorem RangePairs.Covers.next {p : RangePairs} {seen : Bytes} (h : p.Covers seen) (c : UInt8) :
    (p.next c).Covers (seen ++ [c]) := by
  obtain ⟨pairs, hpairs⟩ := h.paired
  have hseen := h.seen
  have hord := h.ordered
  simp only [hpairs, inRanges_append, inRanges, Bool.or_false, Bool.or_eq_true,
    Bool.and_eq_true, decide_eq_true_eq, UInt8.le_iff_toNat_le] at hseen hord
  unfold RangePairs.next
  split
  · rename_i hc
    have hbound := c.toNat_lt
    have hlast : (p.lastRangeChar + 1).toNat = p.lastRangeChar.toNat + 1 := toNat_add_one (by omega)
    refine ⟨⟨pairs, hpairs⟩, ?_, ?_⟩
    · change p.firstRangeChar ≤ p.lastRangeChar + 1
      rw [UInt8.le_iff_toNat_le, hlast]
      omega
    · intro d hd
      simp only [hpairs, inRanges_append, inRanges, Bool.or_false, Bool.or_eq_true,
        Bool.and_eq_true, decide_eq_true_eq, UInt8.le_iff_toNat_le, hlast]
      rcases List.mem_append.mp hd with hd | hd
      · rcases hseen d hd with hh | hh
        · exact Or.inl hh
        · exact Or.inr (by omega)
      · obtain rfl := List.mem_singleton.mp hd
        exact Or.inr (by omega)
  · refine ⟨⟨pairs ++ [(p.firstRangeChar, p.lastRangeChar)], by simp [hpairs]⟩, UInt8.le_refl c, ?_⟩
    intro d hd
    rw [show p.table ++ [p.firstRangeChar, p.lastRangeChar] =
      (pairs ++ [(p.firstRangeChar, p.lastRangeChar)]).flatMap (fun q => [q.1, q.2]) by simp [hpairs],
      inRanges_append]
    simp only [inRanges, Bool.or_false, Bool.or_eq_true, Bool.and_eq_true, decide_eq_true_eq,
      UInt8.le_iff_toNat_le, List.any_append, List.any_cons, List.any_nil]
    rcases List.mem_append.mp hd with hd | hd
    · exact Or.inl (hseen d hd)
    · obtain rfl := List.mem_singleton.mp hd
      exact Or.inr ⟨Nat.le_refl _, Nat.le_refl _⟩

theorem inRanges_constructRangePairTable {table : Bytes} {c : UInt8} (h : c ∈ table) :
    inRanges (constructRangePairTable table) c = true := by
  cases table with
  | nil => simp at h
  | cons x xs =>
    have hfold : ∀ (ys seen : Bytes) (p : RangePairs), p.Covers seen →
        (ys.foldl RangePairs.next p).Covers (seen ++ ys) := by
      intro ys
      induction ys with
      | nil => intro seen p hp; simpa using hp
      | cons y ys ih =>
        intro seen p hp
        simpa [List.append_assoc] using ih (seen ++ [y]) (p.next y) (hp.next y)
    have hinit : RangePairs.Covers ⟨[], x, x⟩ [x] :=
      ⟨⟨[], rfl⟩, UInt8.le_refl x, fun d hd => by
        obtain rfl := List.mem_singleton.mp hd
        simp [inRanges]⟩
    exact (hfold xs [x] ⟨[], x, x⟩ hinit).seen c h

theorem findBlock_eq (c : UInt8) (mem : Mem) (cbegin len b : Nat) :
    findBlock c mem cbegin len b =
      let bit := leastSignificant (equalMask c (lddqu mem (cbegin + 16 * b)))
      if bit < 16 ∧ 16 * b + bit < len then some (16 * b + bit) else none := by
  simp only [findBlock, findFirstSetBit]
  by_cases h16 : leastSignificant (equalMask c (lddqu mem (cbegin + 16 * b))) < 16
  · simp only [h16, if_true, true_and]
    split
    · rw [if_pos (by omega), Nat.min_eq_left (by omega)]
      exact congrArg some (by omega)
    · rw [if_neg (by omega)]
  · simp [h16]

theorem isFirst_find (c : UInt8) (mem : Mem) (cbegin len : Nat) :
    IsFirst (fun j => mem (cbegin + j) = c) len (find c mem cbegin len) := by
  have hfirst (b : Nat) := isFirst_leastSignificant (equalMask c (lddqu mem (cbegin + 16 * b)))
  have hbit (b j : Nat) : equalMask c (lddqu mem (cbegin + 16 * b)) j = true ↔
      mem (cbegin + (16 * b + j)) = c := by
    simp [equalMask, lddqu, Nat.add_assoc]
  refine isFirst_of_blocks (w := 16) (by omega) (by omega) ?_ ?_
  · intro b hb j hj hj' hlen
    rw [findBlock_eq] at hb
    dsimp only at hb
    have hmiss := (hfirst b).before (j - 16 * b) (by
      have := (hfirst b).le
      split at hb
      · simp at hb
      · omega)
    rwa [hbit, show 16 * b + (j - 16 * b) = j by omega] at hmiss
  · intro b r hb
    rw [findBlock_eq] at hb
    dsimp only at hb
    split at hb
    · rename_i hcond
      obtain rfl := Option.some.inj hb
      refine ⟨hcond.2, (hbit b _).mp ((hfirst b).hit hcond.1), fun j hj hlt hat => ?_⟩
      refine (hfirst b).before (j - 16 * b) (by omega) ((hbit b _).mpr ?_)
      rwa [show 16 * b + (j - 16 * b) = j by omega]
    · simp at hb

theorem findSome?_getD_le {f : Nat → Option Nat} {l : List Nat} {len : Nat}
    (h : ∀ b r, f b = some r → r ≤ len) : (l.findSome? f).getD len ≤ len := by
  cases hf : l.findSome? f with
  | none => exact Nat.le_refl len
  | some r =>
    obtain ⟨_, b, _, -, hb, -⟩ := List.findSome?_eq_some_iff.mp hf
    exact h b r hb

theorem tableSearch_le (cmp : Bytes → Mem → Nat → Nat) (table : Bytes) (mem : Mem)
    (cbegin len : Nat) : tableSearch cmp table mem cbegin len ≤ len := by
  refine findSome?_getD_le fun b r h => ?_
  have hhit : ∀ lsbSet : Nat, (if lsbSet < 16 then some (min (16 * b + lsbSet) len) else none) =
      some r → r ≤ len := by
    intro lsbSet h
    split at h
    · have := Option.some.inj h
      omega
    · simp at h
  simp only [tableBlock] at h
  split at h
  · rename_i hs
    obtain ⟨_, j, _, -, hj, -⟩ := List.findSome?_eq_some_iff.mp hs
    rw [Option.some.inj h] at hj
    exact hhit _ hj
  · split at h
    · exact hhit _ h
    · simp at h

theorem findFirstPossibleCodeUnitDefault_le (compiledCuBitmap : Bytes) (mem : Mem)
    (cbegin len : Nat) :
    findFirstPossibleCodeUnitDefault compiledCuBitmap mem cbegin len ≤ len := by
  unfold findFirstPossibleCodeUnitDefault
  split
  · exact Nat.le_refl len
  · exact (isFirst_find _ mem cbegin len).le
  · exact tableSearch_le _ _ _ _ _

end Ucg
