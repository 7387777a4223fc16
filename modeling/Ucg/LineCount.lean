import Ucg.Lib.Popcount
import Ucg.Lib.Simd
import Ucg.Match

/-! The vectorised count of the line ends between two addresses: a masked aligned block before
the first aligned address, aligned blocks, and the bytes behind the last aligned address. -/

namespace Ucg

open Segments Simd Popcount

/-- The bit mask of the bytes in a block of sixteen that equal `c`. -/
def movemask (c : UInt8) (block : Mem) : BitVec 32 :=
  (BitVec.ofBoolListLE ((List.range 16).map (equalMask c block))).setWidth 32

/-- The two implementations of `popcount16`, of which the compiler's target selects one. -/
def popcount16 (hasPopcnt : Bool) (bits : BitVec 16) : Nat :=
  if hasPopcnt then popcount bits else kernighan 16 bits

def memcntPrologue (hasPopcnt : Bool) (mem : Mem) (unalignedStart numUnalignedBytes len : Nat)
    (searchchar : UInt8) : Nat :=
  let alignedPreStart := unalignedStart - (16 - numUnalignedBytes)
  let matchBitmask := movemask searchchar (lddqu mem alignedPreStart)
  let matchBitmask := matchBitmask &&& (0xFFFF#32 <<< (16 - numUnalignedBytes))
  let matchBitmask :=
    if len < numUnalignedBytes then matchBitmask &&& (0x0FFFF#32 >>> (numUnalignedBytes - len))
    else matchBitmask
  popcount16 hasPopcnt (matchBitmask.setWidth 16)

structure LineCounter where
  numLinesSinceLastMatch : Nat
  lastPtr : Nat

/-- The main loop, for at most so many rounds. -/
def countAlignedBlocks (hasPopcnt : Bool) (mem : Mem) (onePastLastAligned : Nat) :
    Nat → LineCounter → LineCounter
  | 0, s => s
  | rounds + 1, s =>
    if s.lastPtr < onePastLastAligned then
      let matchBitmask := movemask newline (lddqu mem s.lastPtr)
      countAlignedBlocks hasPopcnt mem onePastLastAligned rounds
        { numLinesSinceLastMatch :=
            s.numLinesSinceLastMatch + popcount16 hasPopcnt (matchBitmask.setWidth 16)
          lastPtr := s.lastPtr + 16 }
    else s

/-- The epilogue, with the number of bytes that are left. -/
def countBytes (mem : Mem) : Nat → LineCounter → LineCounter
  | 0, s => s
  | len + 1, s =>
    countBytes mem len
      { numLinesSinceLastMatch :=
          if mem s.lastPtr = newline then s.numLinesSinceLastMatch + 1
          else s.numLinesSinceLastMatch
        lastPtr := s.lastPtr + 1 }

def countLinesSinceLastMatchSse (hasPopcnt : Bool) (mem : Mem) (cbegin cend : Nat) : Nat :=
  let len := cend - cbegin
  let startUnalignedByteOffset := cbegin &&& 15
  let numUnalignedPrologueBytes := 16 - startUnalignedByteOffset
  let bytesConsumed := if startUnalignedByteOffset ≠ 0 then min len numUnalignedPrologueBytes else 0
  let s : LineCounter :=
    { numLinesSinceLastMatch :=
        if startUnalignedByteOffset ≠ 0 then
          memcntPrologue hasPopcnt mem cbegin numUnalignedPrologueBytes len newline
        else 0
      lastPtr := cbegin + bytesConsumed }
  let len := len - bytesConsumed
  if len = 0 then s.numLinesSinceLastMatch
  else
    let numEpilogueBytes := cend &&& 15
    let onePastLastAligned := cend - numEpilogueBytes
    if s.lastPtr < onePastLastAligned then
      let numAlignedReadsBytes := onePastLastAligned - s.lastPtr
      let s := countAlignedBlocks hasPopcnt mem onePastLastAligned numAlignedReadsBytes s
      (countBytes mem (len - numAlignedReadsBytes) s).numLinesSinceLastMatch
    else (countBytes mem len s).numLinesSinceLastMatch

def newlinesIn (mem : Mem) (a b : Nat) : Nat := ((Finset.Ico a b).filter fun i => mem i = newline).card

section

variable {hasPopcnt : Bool} {mem : Mem} {a b c e : Nat}

theorem newlinesIn_append (mem : Mem) (hab : a ≤ b) (hbc : b ≤ c) :
    newlinesIn mem a b + newlinesIn mem b c = newlinesIn mem a c := by
  simp only [newlinesIn, Finset.card_filter]
  exact Finset.sum_Ico_consecutive _ hab hbc

theorem newlinesIn_self (mem : Mem) (a : Nat) : newlinesIn mem a a = 0 := by simp [newlinesIn]

theorem newlinesIn_succ (mem : Mem) (a : Nat) :
    newlinesIn mem a (a + 1) = if mem a = newline then 1 else 0 := by
  rw [newlinesIn, Finset.card_filter, Nat.Ico_succ_singleton, Finset.sum_singleton]

theorem popcount16_eq (hasPopcnt : Bool) (bits : BitVec 16) :
    popcount16 hasPopcnt bits = popcount bits := by
  cases hasPopcnt with
  | true => rfl
  | false => exact kernighan_eq 16 bits (popcount_le bits)

/-- A mask with the line ends of a part of a block set counts the line ends of this part. -/
theorem popcount_eq_newlinesIn {bits : BitVec 16} (p lo hi : Nat) (hhi : hi ≤ 16)
    (h : ∀ i < 16, bits.getLsbD i = true ↔ lo ≤ i ∧ i < hi ∧ mem (p + i) = newline) :
    popcount bits = newlinesIn mem (p + lo) (p + hi) := by
  rw [popcount_eq_sum, ← Finset.card_filter, newlinesIn]
  refine Finset.card_bij (fun i _ => p + i) ?_ (fun i _ j _ hij => Nat.add_left_cancel hij) ?_
  · intro i hi
    obtain ⟨hlt, hbit⟩ := Finset.mem_filter.mp hi
    obtain ⟨hlo, hup, hat⟩ := (h i (Finset.mem_range.mp hlt)).mp hbit
    exact Finset.mem_filter.mpr ⟨Finset.mem_Ico.mpr ⟨by omega, by omega⟩, hat⟩
  · intro j hj
    obtain ⟨hrange, hat⟩ := Finset.mem_filter.mp hj
    obtain ⟨hlo, hup⟩ := Finset.mem_Ico.mp hrange
    have hpj : p + (j - p) = j := by omega
    refine ⟨j - p, Finset.mem_filter.mpr ⟨Finset.mem_range.mpr (by omega), ?_⟩, hpj⟩
    exact (h (j - p) (by omega)).mpr ⟨by omega, by omega, by rwa [hpj]⟩

theorem getLsbD_movemask {block : Mem} {i : Nat} (hi : i < 16) :
    (movemask newline block).getLsbD i = true ↔ block i = newline := by
  rw [movemask, BitVec.getLsbD_setWidth, BitVec.getLsbD_ofBoolListLE]
  simp [hi, equalMask, show i < 32 by omega]

theorem getLsbD_ffff (i : Nat) : (0xFFFF#32).getLsbD i = decide (i < 16) := by
  rw [BitVec.getLsbD_ofNat, show 0xFFFF = 2 ^ 16 - 1 by rfl, Nat.testBit_two_pow_sub_one]
  rcases Nat.lt_or_ge i 16 with hi | hi
  · simp [hi, show i < 32 by omega]
  · simp [show ¬ i < 16 by omega]

theorem memcntPrologue_eq {off len : Nat} (hoff : off < 16) (halign : off ≤ a) :
    memcntPrologue hasPopcnt mem a (16 - off) len newline =
      newlinesIn mem a (a + min len (16 - off)) := by
  have hblock : newlinesIn mem a (a + min len (16 - off)) =
      newlinesIn mem (a - off + off) (a - off + (off + min len (16 - off))) := by
    rw [← Nat.add_assoc, Nat.sub_add_cancel halign]
  rw [hblock, memcntPrologue, popcount16_eq, Nat.sub_sub_self (Nat.le_of_lt hoff)]
  apply popcount_eq_newlinesIn _ _ _ (by omega)
  intro i hi
  by_cases hlen : len < 16 - off
  · simp only [if_pos hlen, BitVec.getLsbD_setWidth, BitVec.getLsbD_and, BitVec.getLsbD_shiftLeft,
      BitVec.getLsbD_ushiftRight, getLsbD_ffff, getLsbD_movemask hi, lddqu, Bool.and_eq_true,
      Bool.not_eq_true', decide_eq_true_eq, decide_eq_false_iff_not]
    by_cases hat : mem (a - off + i) = newline
    · simp only [hat, and_true, true_and]
      omega
    · simp only [hat, and_false, false_and]
  · simp only [if_neg hlen, BitVec.getLsbD_setWidth, BitVec.getLsbD_and, BitVec.getLsbD_shiftLeft,
      getLsbD_ffff, getLsbD_movemask hi, lddqu, Bool.and_eq_true, Bool.not_eq_true',
      decide_eq_true_eq, decide_eq_false_iff_not]
    by_cases hat : mem (a - off + i) = newline
    · simp only [hat, and_true, true_and]
      omega
    · simp only [hat, and_false, false_and]

theorem countBytes_eq (len : Nat) (s : LineCounter) :
    (countBytes mem len s).numLinesSinceLastMatch =
      s.numLinesSinceLastMatch + newlinesIn mem s.lastPtr (s.lastPtr + len) := by
  induction len generalizing s with
  | zero => simp [countBytes, newlinesIn_self]
  | succ len ih =>
    have hfirst := newlinesIn_succ mem s.lastPtr
    have hrest := newlinesIn_append mem (Nat.le_add_right s.lastPtr 1)
      (show s.lastPtr + 1 ≤ s.lastPtr + 1 + len by omega)
    rw [countBytes, ih, Nat.add_comm len 1, ← Nat.add_assoc, ← hrest, hfirst]
    by_cases hat : mem s.lastPtr = newline
    · simp only [if_pos hat]
      omega
    · simp only [if_neg hat]
      omega

theorem countAlignedBlocks_eq (rounds blocks : Nat) (s : LineCounter) (h : blocks ≤ rounds) :
    countAlignedBlocks hasPopcnt mem (s.lastPtr + 16 * blocks) rounds s =
      { numLinesSinceLastMatch := s.numLinesSinceLastMatch +
          newlinesIn mem s.lastPtr (s.lastPtr + 16 * blocks)
        lastPtr := s.lastPtr + 16 * blocks } := by
  induction rounds generalizing blocks s with
  | zero =>
    obtain rfl := Nat.le_zero.mp h
    simp [countAlignedBlocks, newlinesIn_self]
  | succ rounds ih =>
    cases blocks with
    | zero => simp [countAlignedBlocks, newlinesIn_self]
    | succ blocks =>
      have hblock : popcount16 hasPopcnt ((movemask newline (lddqu mem s.lastPtr)).setWidth 16) =
          newlinesIn mem s.lastPtr (s.lastPtr + 16) := by
        rw [popcount16_eq, popcount_eq_newlinesIn s.lastPtr 0 16 (Nat.le_refl 16)]
        · rfl
        · intro i hi
          simp [getLsbD_movemask hi, hi, lddqu]
      have hrest := newlinesIn_append mem (Nat.le_add_right s.lastPtr 16)
        (show s.lastPtr + 16 ≤ s.lastPtr + 16 * (blocks + 1) by omega)
      have hnext := ih blocks
        { numLinesSinceLastMatch := s.numLinesSinceLastMatch + newlinesIn mem s.lastPtr (s.lastPtr + 16)
          lastPtr := s.lastPtr + 16 } (by omega)
      rw [← hblock] at hnext
      rw [countAlignedBlocks, if_pos (by omega), ← hrest, ← hblock, ← Nat.add_assoc]
      rw [show s.lastPtr + 16 * (blocks + 1) = s.lastPtr + 16 + 16 * blocks by omega]
      exact hnext

theorem countLines_aligned (hasPopcnt : Bool) (mem : Mem) (s : LineCounter) {len : Nat} (halign : s.lastPtr % 16 = 0)
    (hlen : s.lastPtr + len = e) :
    (if s.lastPtr < e - (e &&& 15) then
      (countBytes mem (len - (e - (e &&& 15) - s.lastPtr))
        (countAlignedBlocks hasPopcnt mem (e - (e &&& 15)) (e - (e &&& 15) - s.lastPtr) s))
    else countBytes mem len s).numLinesSinceLastMatch =
      s.numLinesSinceLastMatch + newlinesIn mem s.lastPtr e := by
  have hmask : e &&& 15 = e % 16 := Nat.and_two_pow_sub_one_eq_mod e 4
  rw [hmask]
  by_cases hlt : s.lastPtr < e - e % 16
  · obtain ⟨blocks, hblocks⟩ : ∃ blocks, e - e % 16 = s.lastPtr + 16 * blocks :=
      ⟨(e - e % 16 - s.lastPtr) / 16, by omega⟩
    rw [if_pos hlt, hblocks, countAlignedBlocks_eq _ blocks s (by omega), countBytes_eq]
    have hjoin := newlinesIn_append mem (Nat.le_add_right s.lastPtr (16 * blocks))
      (show s.lastPtr + 16 * blocks ≤ e by omega)
    simp only
    rw [show s.lastPtr + 16 * blocks + (len - (s.lastPtr + 16 * blocks - s.lastPtr)) = e by omega]
    omega
  · rw [if_neg hlt, countBytes_eq, hlen]

theorem countLinesSinceLastMatchSse_eq (hasPopcnt : Bool) (mem : Mem) (h : b ≤ e) :
    countLinesSinceLastMatchSse hasPopcnt mem b e = newlinesIn mem b e := by
  have hmask : b &&& 15 = b % 16 := Nat.and_two_pow_sub_one_eq_mod b 4
  obtain ⟨consumed, hconsumed⟩ : ∃ consumed, consumed =
      if b % 16 ≠ 0 then min (e - b) (16 - b % 16) else 0 := ⟨_, rfl⟩
  have hprologue : (if b % 16 ≠ 0 then
      memcntPrologue hasPopcnt mem b (16 - b % 16) (e - b) newline else 0) =
        newlinesIn mem b (b + consumed) := by
    by_cases hoff : b % 16 ≠ 0
    · rw [if_pos hoff, hconsumed, if_pos hoff]
      exact memcntPrologue_eq (by omega) (by omega)
    · rw [if_neg hoff, hconsumed, if_neg hoff, Nat.add_zero, newlinesIn_self]
  have hle : b + consumed ≤ e := by
    split at hconsumed <;> omega
  have halign : e - b - consumed ≠ 0 → (b + consumed) % 16 = 0 := by
    split at hconsumed <;> omega
  simp only [countLinesSinceLastMatchSse, hmask, hprologue, ← hconsumed]
  by_cases hend : e - b - consumed = 0
  · rw [if_pos hend, show b + consumed = e by omega]
  · have hrest := countLines_aligned (e := e) hasPopcnt mem
      ⟨newlinesIn mem b (b + consumed), b + consumed⟩ (halign hend)
      (show b + consumed + (e - b - consumed) = e by omega)
    rw [if_neg hend, ← newlinesIn_append mem (Nat.le_add_right b consumed) hle, ← hrest]
    split <;> rfl

theorem lineOf_add_newlinesIn {file : Bytes} {p : Nat} (n : Nat)
    (hfile : ∀ i < n, file[p + i]? = some (mem (b + i))) :
    lineOf newline file p + newlinesIn mem b (b + n) = lineOf newline file (p + n) := by
  induction n with
  | zero => simp [newlinesIn_self]
  | succ n ih =>
    have hlast := newlinesIn_succ mem (b + n)
    have hjoin := newlinesIn_append mem (Nat.le_add_right b n) (Nat.le_succ (b + n))
    have hline := lineOf_succ newline file (p + n)
    simp only [hfile n (by omega), Option.some.injEq] at hline
    have hrest := ih fun i hi => hfile i (by omega)
    rw [← Nat.add_assoc, ← Nat.add_assoc]
    simp only [Nat.succ_eq_add_one] at hjoin
    omega

theorem countLinesSinceLastMatchDefault_eq {file : Bytes} {p : Nat} (n : Nat)
    (hfile : ∀ i < n, file[p + i]? = some (mem (b + i))) :
    countLinesSinceLastMatchDefault file p (p + n) = newlinesIn mem b (b + n) := by
  cases n with
  | zero =>
    have hempty : slice file p p = [] := by simp [slice, List.drop_take_self]
    simp [countLinesSinceLastMatchDefault, countLinesLoop, hempty, newlinesIn_self]
  | succ n =>
    have hlen : p + n < file.length := (List.getElem?_eq_some_iff.mp (hfile n (by omega))).1
    have hend : p + (n + 1) ≤ file.length := by omega
    have hdefault := lineOf_add_countLines (Nat.le_add_right p (n + 1)) hend
    have hlines := lineOf_add_newlinesIn (n + 1) hfile
    omega

end

/-- The vectorised count and the plain one are the number of line ends between the addresses,
wherever the bytes of the file lie in memory and whatever lies around them. -/
theorem countLines_engines_agree (hasPopcnt : Bool) (mem : Mem) (cbegin cend : Nat)
    (h : cbegin ≤ cend) (file : Bytes) (p : Nat)
    (hfile : ∀ i < cend - cbegin, file[p + i]? = some (mem (cbegin + i))) :
    countLinesSinceLastMatchSse hasPopcnt mem cbegin cend =
        ((Finset.Ico cbegin cend).filter fun i => mem i = newline).card ∧
      countLinesSinceLastMatchDefault file p (p + (cend - cbegin)) =
        countLinesSinceLastMatchSse hasPopcnt mem cbegin cend := by
  refine ⟨countLinesSinceLastMatchSse_eq hasPopcnt mem h, ?_⟩
  rw [countLinesSinceLastMatchDefault_eq _ hfile, Nat.add_sub_cancel' h,
    countLinesSinceLastMatchSse_eq hasPopcnt mem h]

theorem countLines_engines_agree_unaligned :
    countLinesSinceLastMatchSse false (fun _ => newline) 13 38 = 25 := by
  have hagree := countLines_engines_agree false (fun _ => newline) 13 38 (by decide)
    (List.replicate 30 newline) 2 (by decide)
  rw [hagree.1]
  rfl

end Ucg
