import Ucg.FileBuffer
import Ucg.Lib.CHeap

/-! `ResizableArray` on a C heap: the blocks that `realloc` allocates and frees, also when an
allocation fails. -/

namespace Ucg

def requestedSize (neededAlignment neededSize : Nat) : Nat :=
  (neededSize + vectorSize + neededAlignment -
    ((neededSize + vectorSize) &&& (neededAlignment - 1))) % 2 ^ 64

/-- `returned` is what `aligned_alloc` returns, and no address is the exception `bad_alloc`. -/
def overalignedAllocOn (h : CHeap) (returned : Option Nat) (neededAlignment neededSize : Nat) :
    Option Nat × CHeap :=
  if !isPowerOf2 neededAlignment || neededAlignment < 8 then (none, h)
  else match returned with
    | none => (none, h)
    | some p => (some p, h.alloc p (requestedSize neededAlignment neededSize))

structure HeapArray where
  heap : CHeap
  currentBufferSize : Nat := 0
  currentBufferAlignment : Nat := 0
  currentBuffer : Option Nat := none

/-- A call of `realloc`, what `aligned_alloc` returns should it be called, and the memory as other
code has left it. -/
structure ReallocCall where
  neededSize : Nat
  neededAlignment : Nat
  returned : Option Nat
  memory : Nat → UInt8

namespace HeapArray

variable (s : HeapArray)

def needsBlock (neededSize neededAlignment : Nat) : Bool :=
  s.currentBuffer.isNone || s.currentBufferSize < neededSize ||
    s.currentBufferAlignment < neededAlignment

/-- The destructor, and what `realloc` does before it allocates. -/
def freeBuffer : CHeap :=
  match s.currentBuffer with
  | some p => s.heap.free p
  | none => s.heap

/-- `1U << count_trailing_zeros(p)`, with the count taken modulo 32. -/
def alignmentOf (p : Nat) : Nat := 2 ^ (countTrailingZeros p % 32)

def realloc (returned : Option Nat) (neededSize neededAlignment : Nat) : Option Nat × HeapArray :=
  if s.needsBlock neededSize neededAlignment then
    match overalignedAllocOn s.freeBuffer returned neededAlignment neededSize with
    | (none, heap) => (none, { s with heap := heap })
    | (some p, heap) =>
      (some p,
        { heap := heap.memset (p + neededSize) 0 vectorSize
          currentBufferSize := neededSize
          currentBufferAlignment := alignmentOf p
          currentBuffer := some p })
  else
    (s.currentBuffer,
      { s with
        heap := s.currentBuffer.elim s.heap fun p => s.heap.memset (p + neededSize) 0 vectorSize })

def withMemory (memory : Nat → UInt8) : HeapArray :=
  { s with heap := { s.heap with memory := memory } }

def call (c : ReallocCall) : Option Nat × HeapArray :=
  (s.withMemory c.memory).realloc c.returned c.neededSize c.neededAlignment

def IsNew : Prop := s.currentBuffer = none ∧ s.heap.freedTwice = false

/-- The alignment and the size are as `realloc` demands, and `aligned_alloc` returns null or the
address of a new block with the alignment asked for. -/
structure Legal (c : ReallocCall) : Prop where
  pow : ∃ k, c.neededAlignment = 2 ^ k
  pointer : 8 ≤ c.neededAlignment
  sizeT : c.neededSize + vectorSize + c.neededAlignment < 2 ^ 64
  fresh : ∀ p, c.returned = some p → c.neededAlignment ∣ p ∧ s.freeBuffer.live p = none

/-- The buffer is null, or a live block with its size and alignment. -/
def Represents : Prop :=
  ∀ p, s.currentBuffer = some p → ∃ n, s.heap.live p = some n ∧
    s.currentBufferSize + vectorSize ≤ n ∧ s.currentBufferAlignment ∣ p

/-- What a call returns is a live block with the size and alignment asked for, and zeroes behind the
size. -/
def Yields (c : ReallocCall) : Prop :=
  ∀ p, (s.call c).1 = some p → ∃ n, (s.call c).2.heap.live p = some n ∧
    c.neededSize + vectorSize ≤ n ∧ c.neededAlignment ∣ p ∧
    ∀ i, c.neededSize ≤ i → i < c.neededSize + vectorSize → (s.call c).2.heap.memory (p + i) = 0

def Along (P : HeapArray → ReallocCall → Prop) : HeapArray → List ReallocCall → Prop
  | _, [] => True
  | s, c :: calls => P s c ∧ Along P (s.call c).2 calls

def after : HeapArray → List ReallocCall → HeapArray
  | s, [] => s
  | s, c :: calls => after (s.call c).2 calls

/-- Every call leaves the representation in order and returns what it should, and nothing is freed
twice, also in the destructor. -/
def KeepsInvariant (calls : List ReallocCall) : Prop :=
  Along (fun s c => (s.call c).2.Represents ∧ s.Yields c) s calls ∧
    (s.after calls).freeBuffer.freedTwice = false

/-- `aligned_alloc` fails in a call that is to replace the block which the array holds. -/
def FailsToReplace (c : ReallocCall) : Prop :=
  s.currentBuffer ≠ none ∧
    (s.currentBufferSize < c.neededSize ∨ s.currentBufferAlignment < c.neededAlignment) ∧
    c.returned = none

/-- The invariant behind `Represents`. -/
structure Sound : Prop where
  represents : s.Represents
  pow : s.currentBuffer ≠ none → ∃ k, s.currentBufferAlignment = 2 ^ k
  freedTwice : s.heap.freedTwice = false

variable {s} {c : ReallocCall} {calls : List ReallocCall}

theorem Legal.le_requestedSize (h : s.Legal c) :
    c.neededSize + vectorSize ≤ requestedSize c.neededAlignment c.neededSize := by
  have hand : (c.neededSize + vectorSize) &&& (c.neededAlignment - 1) ≤ c.neededAlignment - 1 :=
    Nat.and_le_right
  have hsize := h.sizeT
  have hpointer := h.pointer
  rw [requestedSize, Nat.mod_eq_of_lt (by omega)]
  omega

theorem Legal.dvd_requestedSize (h : s.Legal c) :
    c.neededAlignment ∣ requestedSize c.neededAlignment c.neededSize := by
  obtain ⟨k, hk⟩ := h.pow
  have hsize := h.sizeT
  rw [requestedSize, Nat.mod_eq_of_lt (by omega), hk]
  exact sub_and_dvd (c.neededSize + vectorSize) k

theorem Legal.overalignedAllocOn (h : s.Legal c) (heap : CHeap) :
    overalignedAllocOn heap c.returned c.neededAlignment c.neededSize =
      (c.returned, c.returned.elim heap fun p =>
        heap.alloc p (requestedSize c.neededAlignment c.neededSize)) := by
  have hpow := isPowerOf2_iff.mpr h.pow
  have hpointer := h.pointer
  unfold Ucg.overalignedAllocOn
  rw [if_neg (by simp [hpow, hpointer])]
  cases c.returned <;> rfl

theorem live_freeBuffer_withMemory (s : HeapArray) (memory : Nat → UInt8) :
    (s.withMemory memory).freeBuffer.live = s.freeBuffer.live := by
  unfold freeBuffer withMemory
  cases s.currentBuffer <;> rfl

theorem freedTwice_freeBuffer_withMemory (s : HeapArray) (memory : Nat → UInt8) :
    (s.withMemory memory).freeBuffer.freedTwice = s.freeBuffer.freedTwice := by
  unfold freeBuffer withMemory
  cases s.currentBuffer <;> rfl

theorem call_of_null (h : s.Legal c) (hneeds : s.needsBlock c.neededSize c.neededAlignment = true)
    (hnull : c.returned = none) :
    s.call c = (none, { s with heap := (s.withMemory c.memory).freeBuffer }) := by
  have hneeds' : (s.withMemory c.memory).needsBlock c.neededSize c.neededAlignment = true := hneeds
  rw [call, realloc, if_pos hneeds', h.overalignedAllocOn, hnull]
  rfl

theorem call_of_block (h : s.Legal c) (hneeds : s.needsBlock c.neededSize c.neededAlignment = true)
    {p : Nat} (hp : c.returned = some p) :
    s.call c = (some p,
      { heap := ((s.withMemory c.memory).freeBuffer.alloc p
          (requestedSize c.neededAlignment c.neededSize)).memset (p + c.neededSize) 0 vectorSize
        currentBufferSize := c.neededSize
        currentBufferAlignment := alignmentOf p
        currentBuffer := some p }) := by
  have hneeds' : (s.withMemory c.memory).needsBlock c.neededSize c.neededAlignment = true := hneeds
  rw [call, realloc, if_pos hneeds', h.overalignedAllocOn, hp]
  rfl

theorem call_of_fits {p : Nat} (hbuffer : s.currentBuffer = some p)
    (hsize : c.neededSize ≤ s.currentBufferSize)
    (halignment : c.neededAlignment ≤ s.currentBufferAlignment) :
    s.call c = (some p, { s with
      heap := (s.withMemory c.memory).heap.memset (p + c.neededSize) 0 vectorSize }) := by
  have hneeds : (s.withMemory c.memory).needsBlock c.neededSize c.neededAlignment = false := by
    simp [needsBlock, withMemory, hbuffer, hsize, halignment]
  rw [call, realloc, if_neg (by simp [hneeds])]
  simp [withMemory, hbuffer]

theorem needsBlock_eq_true_iff {size alignment : Nat} : s.needsBlock size alignment = true ↔
    s.currentBuffer = none ∨ s.currentBufferSize < size ∨ s.currentBufferAlignment < alignment := by
  simp [needsBlock, or_assoc]

theorem Sound.freedTwice_freeBuffer (h : s.Sound) : s.freeBuffer.freedTwice = false := by
  unfold freeBuffer
  cases hbuffer : s.currentBuffer with
  | none => exact h.freedTwice
  | some p =>
    obtain ⟨n, hlive, -⟩ := h.represents p hbuffer
    exact (CHeap.freedTwice_free_of_live hlive).trans h.freedTwice

theorem FailsToReplace.not_represents (h : s.Legal c) (hfails : s.FailsToReplace c) :
    ¬ (s.call c).2.Represents := by
  obtain ⟨hbuffer, hneeds, hnull⟩ := hfails
  obtain ⟨p, hp⟩ := Option.ne_none_iff_exists'.mp hbuffer
  intro hrepresents
  rw [call_of_null h (needsBlock_eq_true_iff.mpr (Or.inr hneeds)) hnull] at hrepresents
  obtain ⟨n, hlive, -⟩ := hrepresents p hp
  have hfreed : (s.withMemory c.memory).freeBuffer.live p = none := by
    rw [live_freeBuffer_withMemory, freeBuffer, hp]
    exact CHeap.live_free_self ..
  exact absurd (hfreed.symm.trans hlive) (by simp)

section View

/-- The array as its user sees it. -/
def view (s : HeapArray) : ResizableArray :=
  ⟨s.currentBufferSize, s.currentBufferAlignment,
    s.currentBuffer.map fun p i => s.heap.memory (p + i)⟩

theorem zeroTail_memory (h : CHeap) (p size : Nat) :
    (fun i => (h.memset (p + size) 0 vectorSize).memory (p + i)) =
      zeroTail size fun i => h.memory (p + i) := by
  funext i
  have hbounds : (p + size ≤ p + i ∧ p + i < p + size + vectorSize) ↔
      (size ≤ i ∧ i < size + vectorSize) := by omega
  simp only [CHeap.memset, zeroTail, hbounds]

theorem memory_freeBuffer (s : HeapArray) : s.freeBuffer.memory = s.heap.memory := by
  unfold freeBuffer
  cases s.currentBuffer <;> rfl

theorem Legal.le_alignmentOf (h : s.Legal c) {q : Nat} (hreturned : c.returned = some q)
    (hne : q ≠ 0) (hlt : q < 2 ^ 64) (hshift : countTrailingZeros q < 32) :
    c.neededAlignment ≤ alignmentOf q := by
  obtain ⟨k, hk⟩ := h.pow
  have hdvd := (h.fresh q hreturned).1
  rw [hk] at hdvd ⊢
  rw [alignmentOf, Nat.mod_eq_of_lt hshift]
  exact Nat.pow_le_pow_right (by decide) (le_countTrailingZeros hne hlt hdvd)

/-- Where no allocation fails, `realloc` on the heap is `realloc` of the array that its user
sees. -/
theorem view_call (h : s.Legal c) {q : Nat} (hreturned : c.returned = some q) (hne : q ≠ 0)
    (hlt : q < 2 ^ 64) (hshift : countTrailingZeros q < 32) : ∃ alignedAlloc : AlignedAlloc,
      (s.withMemory c.memory).view.realloc alignedAlloc c.neededSize c.neededAlignment =
        some (s.call c).2.view := by
  have hq := h.le_alignmentOf hreturned hne hlt hshift
  refine ⟨fun alignment _ => ⟨fun i => c.memory (q + i), max alignment (alignmentOf q),
    le_max_left _ _⟩, ?_⟩
  have hsame : ((s.withMemory c.memory).view.currentBuffer.isNone ||
      decide ((s.withMemory c.memory).view.currentBufferSize < c.neededSize) ||
      decide ((s.withMemory c.memory).view.currentBufferAlignment < c.neededAlignment)) =
      s.needsBlock c.neededSize c.neededAlignment := by
    rw [needsBlock, view, Option.isNone_map]
    rfl
  unfold ResizableArray.realloc
  rw [hsame]
  by_cases hneeds : s.needsBlock c.neededSize c.neededAlignment = true
  · have hpow := isPowerOf2_iff.mpr h.pow
    have hpointer := h.pointer
    rw [if_pos hneeds, call_of_block h hneeds hreturned, overalignedAlloc,
      if_neg (by simp [hpow, hpointer])]
    simp only [view, Option.map_some, zeroTail_memory, max_eq_right hq, CHeap.alloc,
      memory_freeBuffer, withMemory]
  · rw [if_neg hneeds]
    rw [needsBlock_eq_true_iff, not_or, not_or, not_lt, not_lt] at hneeds
    obtain ⟨hbuffer, hsize, halignment⟩ := hneeds
    obtain ⟨p, hp⟩ := Option.ne_none_iff_exists'.mp hbuffer
    rw [call_of_fits hp hsize halignment]
    simp only [view, hp, Option.map_some, zeroTail_memory, withMemory]

end View

theorem alignmentOf_dvd (p : Nat) : alignmentOf p ∣ p :=
  (Nat.pow_dvd_pow 2 (Nat.mod_le _ _)).trans (two_pow_countTrailingZeros_dvd p)

theorem Sound.call_block (hs : s.Sound) (h : s.Legal c)
    (hneeds : s.needsBlock c.neededSize c.neededAlignment = true) {p : Nat}
    (hp : c.returned = some p) : (s.call c).2.Sound ∧ s.Yields c := by
  have hsize := h.le_requestedSize
  have hlive : ((s.withMemory c.memory).freeBuffer.alloc p
      (requestedSize c.neededAlignment c.neededSize)).live p =
      some (requestedSize c.neededAlignment c.neededSize) := CHeap.live_alloc_self ..
  rw [Yields, call_of_block h hneeds hp]
  refine ⟨⟨fun q hq => ?_, fun _ => ⟨_, rfl⟩, ?_⟩, fun q hq => ?_⟩
  · obtain rfl := Option.some.inj hq
    exact ⟨_, hlive, hsize, alignmentOf_dvd p⟩
  · rw [CHeap.freedTwice_memset, CHeap.freedTwice_alloc, freedTwice_freeBuffer_withMemory]
    exact hs.freedTwice_freeBuffer
  · obtain rfl := Option.some.inj hq
    exact ⟨_, hlive, hsize, (h.fresh p hp).1, fun i hlo hhi =>
      CHeap.memory_memset (by omega) (by omega)⟩

theorem Sound.call_fits (hs : s.Sound) (h : s.Legal c) {p : Nat} (hbuffer : s.currentBuffer = some p)
    (hsize : c.neededSize ≤ s.currentBufferSize)
    (halignment : c.neededAlignment ≤ s.currentBufferAlignment) :
    (s.call c).2.Sound ∧ s.Yields c := by
  obtain ⟨n, hlive, hn, hdvd⟩ := hs.represents p hbuffer
  rw [Yields, call_of_fits hbuffer hsize halignment]
  refine ⟨⟨hs.represents, hs.pow, hs.freedTwice⟩, fun q hq => ?_⟩
  obtain rfl := Option.some.inj hq
  refine ⟨n, hlive, by omega, ?_, fun i hlo hhi => CHeap.memory_memset (by omega) (by omega)⟩
  obtain ⟨j, hj⟩ := h.pow
  obtain ⟨k, hk⟩ := hs.pow (by simp [hbuffer])
  rw [hj]
  exact two_pow_dvd_of_le (hj ▸ hk ▸ halignment) (hk ▸ hdvd)

theorem Sound.call (hs : s.Sound) (h : s.Legal c) (hfails : ¬ s.FailsToReplace c) :
    (s.call c).2.Sound ∧ s.Yields c := by
  by_cases hneeds : s.needsBlock c.neededSize c.neededAlignment = true
  · cases hreturned : c.returned with
    | none =>
      -- Only an array without a block may fail to get one.
      have hnone : s.currentBuffer = none := by
        by_contra hbuffer
        exact hfails ⟨hbuffer, (needsBlock_eq_true_iff.mp hneeds).resolve_left hbuffer, hreturned⟩
      have hfreed : (s.withMemory c.memory).freeBuffer.freedTwice = false := by
        rw [freedTwice_freeBuffer_withMemory]
        exact hs.freedTwice_freeBuffer
      rw [Yields, call_of_null h hneeds hreturned]
      exact ⟨⟨fun p hp => by simp [hnone] at hp, fun hbuffer => absurd hnone hbuffer, hfreed⟩,
        fun p hp => by simp at hp⟩
    | some p => exact hs.call_block h hneeds hreturned
  · rw [needsBlock_eq_true_iff, not_or, not_or, not_lt, not_lt] at hneeds
    obtain ⟨hbuffer, hsize, halignment⟩ := hneeds
    obtain ⟨p, hp⟩ := Option.ne_none_iff_exists'.mp hbuffer
    exact hs.call_fits h hp hsize halignment

theorem IsNew.sound (h : s.IsNew) : s.Sound :=
  ⟨fun p hp => by simp [h.1] at hp, fun hbuffer => absurd h.1 hbuffer, h.2⟩

theorem Sound.keepsInvariant (hs : s.Sound) (hlegal : Along Legal s calls)
    (hfails : Along (fun s c => ¬ s.FailsToReplace c) s calls) : s.KeepsInvariant calls := by
  induction calls generalizing s with
  | nil => exact ⟨trivial, hs.freedTwice_freeBuffer⟩
  | cons c calls ih =>
    obtain ⟨hsound, hyields⟩ := hs.call hlegal.1 hfails.1
    obtain ⟨halong, hfreed⟩ := ih hsound hlegal.2 hfails.2
    exact ⟨⟨⟨hsound.represents, hyields⟩, halong⟩, hfreed⟩

theorem KeepsInvariant.not_failsToReplace (h : s.KeepsInvariant calls)
    (hlegal : Along Legal s calls) : Along (fun s c => ¬ s.FailsToReplace c) s calls := by
  induction calls generalizing s with
  | nil => trivial
  | cons c calls ih =>
    obtain ⟨⟨⟨hrepresents, -⟩, halong⟩, hfreed⟩ := h
    exact ⟨fun hfails => hfails.not_represents hlegal.1 hrepresents,
      ih ⟨halong, hfreed⟩ hlegal.2⟩

/-- Whatever the calls: the array keeps its invariant exactly when no allocation fails in a call
that is to replace a block. -/
theorem keepsInvariant_iff (h : s.IsNew) (hlegal : Along Legal s calls) :
    s.KeepsInvariant calls ↔ Along (fun s c => ¬ s.FailsToReplace c) s calls :=
  ⟨fun hkeeps => hkeeps.not_failsToReplace hlegal, h.sound.keepsInvariant hlegal⟩

end HeapArray

def newArray : HeapArray where
  heap := ⟨fun _ => none, fun _ => 0, false⟩

def shrinkingCalls : List ReallocCall :=
  [⟨16, 8, some 4096, fun _ => 0⟩, ⟨5, 8, none, fun _ => 0⟩]

def growingCalls : List ReallocCall :=
  [⟨16, 8, some 4096, fun _ => 0⟩, ⟨20, 8, none, fun _ => 0⟩]

theorem alignmentOf_4096 : HeapArray.alignmentOf 4096 = 4096 := by decide

theorem newArray_legal (c : ReallocCall) (hcall : c.neededAlignment = 8)
    (hsize : c.neededSize ≤ 20) (hreturned : c.returned = some 4096) : newArray.Legal c where
  pow := ⟨3, hcall⟩
  pointer := hcall.ge
  sizeT := by
    rw [hcall, vectorSize]
    omega
  fresh p hp := by
    obtain rfl := Option.some.inj (hreturned.symm.trans hp)
    rw [hcall]
    exact ⟨by decide, rfl⟩

theorem keepsInvariant_iff_shrinkingCalls : newArray.IsNew ∧
    HeapArray.Along HeapArray.Legal newArray shrinkingCalls ∧
      newArray.KeepsInvariant shrinkingCalls := by
  have hfirst := newArray_legal ⟨16, 8, some 4096, fun _ => 0⟩ rfl (by decide) rfl
  have hsecond : (newArray.call ⟨16, 8, some 4096, fun _ => 0⟩).2.Legal ⟨5, 8, none, fun _ => 0⟩ :=
    ⟨⟨3, rfl⟩, by decide, by decide, fun p hp => by simp at hp⟩
  have hnew : newArray.IsNew := ⟨rfl, rfl⟩
  have hlegal : HeapArray.Along HeapArray.Legal newArray shrinkingCalls := ⟨hfirst, hsecond, trivial⟩
  refine ⟨hnew, hlegal, (HeapArray.keepsInvariant_iff hnew hlegal).mpr ⟨?_, ?_, trivial⟩⟩
  · exact fun hfails => hfails.1 rfl
  · rintro ⟨-, hsize | halignment, -⟩
    · exact absurd hsize (by decide)
    · have hcurrent : (newArray.call ⟨16, 8, some 4096, fun _ => 0⟩).2.currentBufferAlignment =
          HeapArray.alignmentOf 4096 := rfl
      rw [hcurrent, alignmentOf_4096] at halignment
      exact absurd halignment (by decide)

/-- When the larger block is not to be had the array keeps the address of the one it has freed, and
the destructor frees it again. -/
theorem not_keepsInvariant_growingCalls : HeapArray.Along HeapArray.Legal newArray growingCalls ∧
    ¬ newArray.KeepsInvariant growingCalls ∧
      (newArray.after growingCalls).freeBuffer.freedTwice = true := by
  have hfirst := newArray_legal ⟨16, 8, some 4096, fun _ => 0⟩ rfl (by decide) rfl
  have hsecond : (newArray.call ⟨16, 8, some 4096, fun _ => 0⟩).2.Legal ⟨20, 8, none, fun _ => 0⟩ :=
    ⟨⟨3, rfl⟩, by decide, by decide, fun p hp => by simp at hp⟩
  have hfails : (newArray.call ⟨16, 8, some 4096, fun _ => 0⟩).2.FailsToReplace
      ⟨20, 8, none, fun _ => 0⟩ := ⟨by decide, Or.inl (by decide), rfl⟩
  exact ⟨⟨hfirst, hsecond, trivial⟩,
    fun hkeeps => hfails.not_represents hsecond hkeeps.1.2.1.1, rfl⟩

end Ucg
