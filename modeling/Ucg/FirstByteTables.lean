import Ucg.CodeUnitTable
import Ucg.Lib.FixedTable
import Ucg.Lib.Intervals
import Ucg.Strings

/-! The two tables of possible first bytes as arrays of 256 bytes that are filled from the front,
and what they say of the bitmap that they are made from. -/

namespace Ucg

open ByteOrder

/-- The tables of a `FileScanner`, with the number of valid entries of each. -/
structure FirstByteTables where
  mCompiledCuBitmap : Vector UInt8 256
  mEndFpcuTable : Nat
  mCompiledRangeBitmap : Vector UInt8 256
  mEndRangesTable : Nat

structure RangeWriter where
  table : FixedTable UInt8 256
  firstRangeChar : UInt8
  lastRangeChar : UInt8

/-- The end of a range: its two bounds are written. -/
def RangeWriter.closeRange (w : RangeWriter) : Option (FixedTable UInt8 256) :=
  (w.table.push? w.firstRangeChar).bind (·.push? w.lastRangeChar)

/-- The body of the loop of `ConstructRangePairTable`. -/
def RangeWriter.next (w : RangeWriter) (c : UInt8) : Option RangeWriter :=
  if c.toNat = w.lastRangeChar.toNat + 1 then
    some { w with lastRangeChar := w.lastRangeChar + 1 }
  else w.closeRange.map fun table => { table := table, firstRangeChar := c, lastRangeChar := c }

def boundsOf (pairs : List (UInt8 × UInt8)) : Bytes := pairs.flatMap fun q => [q.1, q.2]

namespace FirstByteTables

/-- `ConstructCodeUnitTable`. `none` is a write behind the end of the table. -/
def constructCodeUnitTable (s : FirstByteTables) (pcre2Bitmap : Nat → UInt8) :
    Option FirstByteTables := do
  let table ← (List.range 256).foldlM
    (fun table i => if bitIsSet pcre2Bitmap i then table.push? (UInt8.ofNat i) else some table)
    (⟨s.mCompiledCuBitmap, 0⟩ : FixedTable UInt8 256)
  return { s with mCompiledCuBitmap := table.cells, mEndFpcuTable := table.endIndex }

/-- `ConstructRangePairTable`. `none` is a write behind the end of its table, or a read behind the
end of the other. -/
def constructRangePairTable (s : FirstByteTables) : Option FirstByteTables :=
  if s.mEndFpcuTable = 0 then some { s with mEndRangesTable := 0 }
  else do
    let c ← s.mCompiledCuBitmap[0]?
    let w ← (List.range' 1 (s.mEndFpcuTable - 1)).foldlM
      (fun w i => s.mCompiledCuBitmap[i]?.bind w.next)
      (⟨⟨s.mCompiledRangeBitmap, 0⟩, c, c⟩ : RangeWriter)
    let table ← w.closeRange
    return { s with mCompiledRangeBitmap := table.cells, mEndRangesTable := table.endIndex }

def codeUnits (s : FirstByteTables) : Bytes := s.mCompiledCuBitmap.toList.take s.mEndFpcuTable

def rangeBounds (s : FirstByteTables) : Bytes := s.mCompiledRangeBitmap.toList.take s.mEndRangesTable

/-- What the two tables say of a bitmap. -/
structure Describes (s : FirstByteTables) (pcre2Bitmap : Nat → UInt8) : Prop where
  endFpcuTable : s.mEndFpcuTable ≤ 256
  ascending : s.codeUnits.Pairwise (· < ·)
  mem_codeUnits : ∀ c, c ∈ s.codeUnits ↔ bitIsSet pcre2Bitmap c.toNat = true
  endRangesTable : s.mEndRangesTable ≤ 256
  ranges : ∃ pairs : List (UInt8 × UInt8), s.rangeBounds = boundsOf pairs ∧
    (∀ q ∈ pairs, q.1 ≤ q.2) ∧
    (∀ c, bitIsSet pcre2Bitmap c.toNat = true ↔ ∃ q ∈ pairs, q.1 ≤ c ∧ c ≤ q.2) ∧
    pairs.IsChain fun p q => ∃ c, p.2 < c ∧ c < q.1 ∧ bitIsSet pcre2Bitmap c.toNat = false

end FirstByteTables

variable {pcre2Bitmap : Nat → UInt8} {cells : Vector UInt8 256} {pairs : List (UInt8 × UInt8)}
  {p : RangePairs} {w : RangeWriter} {c : UInt8} {cs : Bytes} {s : Set UInt8}

theorem pairwise_constructCodeUnitTable (pcre2Bitmap : Nat → UInt8) :
    (constructCodeUnitTable pcre2Bitmap).Pairwise (· < ·) := by
  rw [constructCodeUnitTable_eq, List.pairwise_map]
  refine (List.pairwise_lt_range.sublist List.filter_sublist).imp_of_mem fun hi hj hij => ?_
  have hlt := List.mem_range.mp (List.mem_of_mem_filter hj)
  rw [UInt8.lt_iff_toNat_lt, UInt8.toNat_ofNat', UInt8.toNat_ofNat', Nat.mod_eq_of_lt (by omega),
    Nat.mod_eq_of_lt hlt]
  exact hij

theorem foldlM_codeUnits (pcre2Bitmap : Nat → UInt8) (cells : Vector UInt8 256) {n : Nat}
    (hn : n ≤ 256) :
    ∃ table, (List.range n).foldlM
        (fun table i => if bitIsSet pcre2Bitmap i then table.push? (UInt8.ofNat i) else some table)
        (⟨cells, 0⟩ : FixedTable UInt8 256) = some table ∧
      table.Holds (((List.range n).filter (bitIsSet pcre2Bitmap)).map UInt8.ofNat) := by
  induction n with
  | zero => exact ⟨_, rfl, FixedTable.Holds.start cells⟩
  | succ n ih =>
    obtain ⟨table, hfold, hholds⟩ := ih (Nat.le_of_succ_le hn)
    rw [List.range_succ, List.foldlM_append, hfold, List.filter_append, List.map_append]
    by_cases hbit : bitIsSet pcre2Bitmap n = true
    · have hroom : (((List.range n).filter (bitIsSet pcre2Bitmap)).map UInt8.ofNat).length < 256 := by
        have hle := List.length_filter_le (bitIsSet pcre2Bitmap) (List.range n)
        rw [List.length_range] at hle
        rw [List.length_map]
        omega
      obtain ⟨table', hpush, hholds'⟩ := hholds.push? hroom (UInt8.ofNat n)
      exact ⟨table', by simp [hbit, hpush], by simpa [hbit] using hholds'⟩
    · exact ⟨table, by simp [hbit], by simpa [hbit] using hholds⟩

theorem boundsOf_append_single (pairs : List (UInt8 × UInt8)) (first last : UInt8) :
    boundsOf (pairs ++ [(first, last)]) = boundsOf pairs ++ [first, last] := by simp [boundsOf]

theorem length_boundsOf (pairs : List (UInt8 × UInt8)) : (boundsOf pairs).length = 2 * pairs.length := by
  induction pairs with
  | nil => rfl
  | cons q pairs ih =>
    have hcons : boundsOf (q :: pairs) = q.1 :: q.2 :: boundsOf pairs := rfl
    rw [hcons, List.length_cons, List.length_cons, List.length_cons, ih]
    omega

/-- The ranges written, and the one that is not closed yet, cover what has been read. -/
def RangePairs.Describes (p : RangePairs) (pairs : List (UInt8 × UInt8)) (s : Set UInt8) : Prop :=
  p.table = boundsOf pairs ∧ Intervals.Covers (pairs ++ [(p.firstRangeChar, p.lastRangeChar)]) s

theorem strictMono_toNat : StrictMono UInt8.toNat := fun _ _ h => UInt8.lt_iff_toNat_lt.mp h

theorem RangePairs.Describes.length_table (h : p.Describes pairs s) : p.table.length + 2 ≤ 256 := by
  have hlength := h.2.two_mul_length_le strictMono_toNat
  have hfirst := p.firstRangeChar.toNat_lt
  rw [h.1, length_boundsOf]
  omega

theorem RangePairs.Describes.next (h : p.Describes pairs s) (hc : p.lastRangeChar < c) :
    ∃ pairs', (p.next c).Describes pairs' (insert c s) ∧ (p.next c).lastRangeChar = c := by
  have hlt := UInt8.lt_iff_toNat_lt.mp hc
  have hbound := c.toNat_lt
  rw [RangePairs.next]
  by_cases hnext : c.toNat = p.lastRangeChar.toNat + 1
  · have hadd : p.lastRangeChar + 1 = c := by
      rw [← UInt8.toNat_inj, toNat_add_one (by omega), hnext]
    have hcovby : p.lastRangeChar ⋖ c := by
      refine ⟨hc, fun d hlo hhi => ?_⟩
      have hlo' := UInt8.lt_iff_toNat_lt.mp hlo
      have hhi' := UInt8.lt_iff_toNat_lt.mp hhi
      omega
    rw [if_pos hnext, hadd]
    exact ⟨pairs, ⟨h.1, h.2.extend hcovby⟩, rfl⟩
  · have hadd : (p.lastRangeChar + 1).toNat = p.lastRangeChar.toNat + 1 := toNat_add_one (by omega)
    have hgap : ∃ d, p.lastRangeChar < d ∧ d < c :=
      ⟨p.lastRangeChar + 1, UInt8.lt_iff_toNat_lt.mpr (by omega), UInt8.lt_iff_toNat_lt.mpr (by omega)⟩
    rw [if_neg hnext]
    refine ⟨pairs ++ [(p.firstRangeChar, p.lastRangeChar)], ⟨?_, h.2.append hgap⟩, rfl⟩
    rw [boundsOf_append_single, h.1]

/-- The array is filled as the list of its valid entries grows. -/
structure RangeWriter.Follows (w : RangeWriter) (p : RangePairs) : Prop where
  table : w.table.Holds p.table
  firstRangeChar : w.firstRangeChar = p.firstRangeChar
  lastRangeChar : w.lastRangeChar = p.lastRangeChar

theorem RangeWriter.Follows.closeRange (h : w.Follows p) (hroom : p.table.length + 2 ≤ 256) :
    ∃ table, w.closeRange = some table ∧
      table.Holds (p.table ++ [p.firstRangeChar, p.lastRangeChar]) := by
  obtain ⟨table, hpush, hholds⟩ := h.table.push? (by omega) p.firstRangeChar
  obtain ⟨table', hpush', hholds'⟩ := hholds.push?
    (by rw [List.length_append, List.length_singleton]; omega) p.lastRangeChar
  refine ⟨table', ?_, by simpa using hholds'⟩
  rw [RangeWriter.closeRange, h.firstRangeChar, h.lastRangeChar, hpush, Option.bind_some, hpush']

theorem RangeWriter.Follows.next (h : w.Follows p) (hroom : p.table.length + 2 ≤ 256) (c : UInt8) :
    ∃ w', w.next c = some w' ∧ w'.Follows (p.next c) := by
  rw [RangeWriter.next, RangePairs.next, h.lastRangeChar]
  by_cases hnext : c.toNat = p.lastRangeChar.toNat + 1
  · rw [if_pos hnext, if_pos hnext]
    exact ⟨_, rfl, h.table, h.firstRangeChar, rfl⟩
  · obtain ⟨table, hclose, hholds⟩ := h.closeRange hroom
    rw [if_neg hnext, if_neg hnext, hclose]
    exact ⟨_, rfl, hholds, rfl, rfl⟩

theorem RangeWriter.Follows.foldlM (h : w.Follows p) (hp : p.Describes pairs s)
    (hsorted : (p.lastRangeChar :: cs).Pairwise (· < ·)) :
    ∃ w', cs.foldlM RangeWriter.next w = some w' ∧ w'.Follows (cs.foldl RangePairs.next p) ∧
      ∃ pairs', (cs.foldl RangePairs.next p).Describes pairs' (s ∪ {d | d ∈ cs}) := by
  induction cs generalizing w p pairs s with
  | nil => exact ⟨w, rfl, h, pairs, by simpa using hp⟩
  | cons c cs ih =>
    obtain ⟨hbefore, hrest⟩ := List.pairwise_cons.mp hsorted
    obtain ⟨w', hw', hfollows⟩ := h.next hp.length_table c
    obtain ⟨pairs', hdescribes, hlast⟩ := hp.next (hbefore c List.mem_cons_self)
    obtain ⟨w'', hfold, hfollows', pairs'', hdescribes'⟩ := ih hfollows hdescribes
      (by rwa [hlast])
    refine ⟨w'', by rw [List.foldlM_cons, hw']; exact hfold, hfollows', pairs'', ?_⟩
    have hset : s ∪ {d | d ∈ c :: cs} = insert c s ∪ {d | d ∈ cs} := by
      ext d
      simp only [Set.mem_union, Set.mem_insert_iff, Set.mem_ofPred_eq, List.mem_cons]
      tauto
    rwa [hset]

theorem foldlM_cells (cells : Vector UInt8 256) {k n : Nat} (h : k + n ≤ 256) (w : RangeWriter) :
    (List.range' k n).foldlM (fun w i => cells[i]?.bind w.next) w =
      ((cells.toList.drop k).take n).foldlM RangeWriter.next w := by
  induction n generalizing k w with
  | zero => simp
  | succ n ih =>
    have hk : k < cells.toList.length := by
      rw [Vector.length_toList]
      omega
    have hread : cells[k]? = some cells.toList[k] := by
      rw [Vector.getElem_toList, Vector.getElem?_eq_getElem]
    rw [List.range'_succ, List.foldlM_cons, List.drop_eq_getElem_cons hk, List.take_succ_cons,
      List.foldlM_cons, hread, Option.bind_some]
    refine Option.bind_congr fun w' _ => ?_
    exact ih (by omega) w'

namespace FirstByteTables

/-- The tables of a scanner are those of the lists of their entries. -/
theorem constructCodeUnitTable_eq_some (t : FirstByteTables) (pcre2Bitmap : Nat → UInt8) :
    ∃ t', t.constructCodeUnitTable pcre2Bitmap = some t' ∧
      t'.codeUnits = Ucg.constructCodeUnitTable pcre2Bitmap ∧
      t'.mEndFpcuTable = (Ucg.constructCodeUnitTable pcre2Bitmap).length := by
  obtain ⟨table, hfold, hholds⟩ := foldlM_codeUnits pcre2Bitmap t.mCompiledCuBitmap (le_refl 256)
  rw [← constructCodeUnitTable_eq] at hholds
  refine ⟨{ t with mCompiledCuBitmap := table.cells, mEndFpcuTable := table.endIndex }, ?_,
    hholds.entries, hholds.endIndex⟩
  rw [constructCodeUnitTable, hfold]
  rfl

theorem constructRangePairTable_eq_some {t : FirstByteTables}
    (hend : t.mEndFpcuTable = t.codeUnits.length) (hsorted : t.codeUnits.Pairwise (· < ·)) :
    ∃ t', t.constructRangePairTable = some t' ∧ t'.codeUnits = t.codeUnits ∧
      t'.mEndFpcuTable = t.mEndFpcuTable ∧ t'.mEndRangesTable ≤ 256 ∧
      t'.rangeBounds = Ucg.constructRangePairTable t.codeUnits ∧
      ∃ pairs, t'.rangeBounds = boundsOf pairs ∧ Intervals.Covers pairs {d | d ∈ t.codeUnits} := by
  cases hunits : t.codeUnits with
  | nil =>
    have hzero : t.mEndFpcuTable = 0 := by rw [hend, hunits, List.length_nil]
    have hnone : {d : UInt8 | d ∈ ([] : Bytes)} = ∅ := by simp
    refine ⟨{ t with mEndRangesTable := 0 }, ?_, hunits, rfl, Nat.zero_le _, rfl, [], rfl, ?_⟩
    · rw [constructRangePairTable, if_pos hzero]
    · rw [hnone]
      exact Intervals.Covers.nil
  | cons c cs =>
    have hlength : t.mEndFpcuTable = cs.length + 1 := by rw [hend, hunits, List.length_cons]
    have hle : t.mEndFpcuTable ≤ 256 := by
      have htake := List.length_take_le' t.mEndFpcuTable t.mCompiledCuBitmap.toList
      rw [Vector.length_toList] at htake
      exact hend ▸ htake
    have hcells : t.mCompiledCuBitmap.toList.take (cs.length + 1) = c :: cs := by
      rw [← hlength]
      exact hunits
    have htail : (t.mCompiledCuBitmap.toList.drop 1).take cs.length = cs := by
      rw [List.take_drop, Nat.add_comm 1, hcells]
      rfl
    have hhead : t.mCompiledCuBitmap[0]? = some c := by
      have hfirst := congrArg (·[0]?) hcells
      rw [List.getElem?_take_of_lt (Nat.succ_pos _), Vector.getElem?_toList] at hfirst
      exact hfirst
    have hstart : RangeWriter.Follows ⟨⟨t.mCompiledRangeBitmap, 0⟩, c, c⟩ ⟨[], c, c⟩ :=
      ⟨FixedTable.Holds.start _, rfl, rfl⟩
    have hone : RangePairs.Describes ⟨[], c, c⟩ [] {c} := ⟨rfl, Intervals.Covers.single c⟩
    rw [hunits] at hsorted
    obtain ⟨w, hfold, hfollows, pairs, hdescribes⟩ := hstart.foldlM hone hsorted
    obtain ⟨table, hclose, hholds⟩ := hfollows.closeRange hdescribes.length_table
    have hread := foldlM_cells t.mCompiledCuBitmap (show 1 + cs.length ≤ 256 by omega)
      ⟨⟨t.mCompiledRangeBitmap, 0⟩, c, c⟩
    rw [htail, hfold] at hread
    have hset : {d | d ∈ c :: cs} = {c} ∪ {d | d ∈ cs} := by
      ext d
      simp
    refine ⟨{ t with mCompiledRangeBitmap := table.cells, mEndRangesTable := table.endIndex }, ?_,
      hunits, rfl, hholds.endIndex ▸ hholds.length_le, hholds.entries, _, ?_, hset ▸ hdescribes.2⟩
    · rw [constructRangePairTable, if_neg (by omega), hhead, hlength, Nat.add_sub_cancel]
      simp only [Option.bind_eq_bind, Option.bind_some, hread, hclose]
      rfl
    · rw [boundsOf_append_single, ← hdescribes.1]
      exact hholds.entries

/-- Whatever the bitmap and the tables before: no write goes behind the end of a table, one lists
the bits that are set in order, and the other has the ranges of these bits. -/
theorem describes_constructed (t : FirstByteTables) (pcre2Bitmap : Nat → UInt8) :
    ∃ t', (t.constructCodeUnitTable pcre2Bitmap).bind constructRangePairTable = some t' ∧
      t'.Describes pcre2Bitmap := by
  obtain ⟨t₁, hconstruct, hunits, hend⟩ := constructCodeUnitTable_eq_some t pcre2Bitmap
  rw [← hunits] at hend
  have hsorted : t₁.codeUnits.Pairwise (· < ·) := hunits ▸ pairwise_constructCodeUnitTable pcre2Bitmap
  have hmem (c : UInt8) : c ∈ t₁.codeUnits ↔ bitIsSet pcre2Bitmap c.toNat = true := by
    rw [hunits, mem_constructCodeUnitTable]
  obtain ⟨t₂, hranges, hunits', hend', hle, -, pairs, hbounds, hcovers⟩ :=
    constructRangePairTable_eq_some hend hsorted
  refine ⟨t₂, by rw [hconstruct, Option.bind_some, hranges], ?_⟩
  constructor
  · rw [hend', hend]
    have htake := List.length_take_le' t₁.mEndFpcuTable t₁.mCompiledCuBitmap.toList
    rwa [Vector.length_toList] at htake
  · rwa [hunits']
  · rwa [hunits']
  · exact hle
  · refine ⟨pairs, hbounds, hcovers.ordered, fun c => ?_, ?_⟩
    · rw [← hmem]
      exact hcovers.mem_iff c
    · refine hcovers.isChain_gap.imp fun p q hgap => ?_
      obtain ⟨c, hpc, hcq, hclear⟩ := hgap
      exact ⟨c, hpc, hcq, Bool.eq_false_iff.mpr fun hset => hclear ((hmem c).mpr hset)⟩

end FirstByteTables

end Ucg
