import Ucg.FileData

/-! What `File` asks of its buffer, and what the reads of `GetFileData` make of it. -/

namespace Ucg

section Alignment

theorem isPowerOf2_iff {val : Nat} : isPowerOf2 val = true ↔ ∃ k, val = 2 ^ k := by
  rw [← Nat.isPowerOfTwo, ← Nat.ne_zero_and_sub_one_eq_zero_iff_isPowerOfTwo]
  simp [isPowerOf2]

theorem clamp_eq_self {val lo hi : Nat} (hlo : lo ≤ val) (hhi : val ≤ hi) : clamp val lo hi = val := by
  rw [clamp, if_neg (by omega), if_neg (by omega)]

theorem ioSize_isPowerOf2_iff (f : FileOnDisk) : (∃ k, f.ioSize = 2 ^ k) ↔
    f.blockSize ≤ 0x20000 ∨ 0x100000 ≤ f.blockSize ∨ ∃ k, f.blockSize = 2 ^ k := by
  by_cases hlo : f.blockSize ≤ 0x20000
  · have hsize : f.ioSize = 2 ^ 17 := by
      rw [FileOnDisk.ioSize, clamp]
      split_ifs <;> omega
    exact iff_of_true ⟨17, hsize⟩ (Or.inl hlo)
  · by_cases hhi : 0x100000 ≤ f.blockSize
    · have hsize : f.ioSize = 2 ^ 20 := by
        rw [FileOnDisk.ioSize, clamp]
        split_ifs <;> omega
      exact iff_of_true ⟨20, hsize⟩ (Or.inr (Or.inl hhi))
    · have hsize : f.ioSize = f.blockSize := clamp_eq_self (by omega) (by omega)
      simp [hsize, hlo, hhi]

theorem getFileData_isSome (alignedAlloc : AlignedAlloc) (storage : ResizableArray) {f : FileOnDisk}
    (hpow : ∃ k, f.ioSize = 2 ^ k) : (getFileData alignedAlloc storage f).isSome := by
  have halignment : 8 ≤ f.ioSize := by
    have hbounds := f.ioSize_bounds
    omega
  obtain ⟨data, hrealloc⟩ := realloc_of_powerOf2 alignedAlloc storage (isPowerOf2_iff.mpr hpow)
    halignment f.fileSize
  obtain ⟨storage', hstorage, -⟩ := Option.map_eq_some_iff.mp hrealloc
  simp [getFileData, hstorage]

theorem getFileData_new_eq_none (alignedAlloc : AlignedAlloc) {f : FileOnDisk}
    (hpow : ¬ ∃ k, f.ioSize = 2 ^ k) : getFileData alignedAlloc {} f = none := by
  have hrefused : isPowerOf2 f.ioSize = false := by
    simpa using mt isPowerOf2_iff.mp hpow
  simp [getFileData, ResizableArray.realloc, overalignedAlloc, hrefused]

/-- The alignment asked for is one that `overaligned_alloc` takes, and no file is refused, exactly
when the block size is a power of two or not strictly between the bounds of the clamp. -/
theorem ioSize_acceptable_iff (f : FileOnDisk) :
    ((∃ k, f.ioSize = 2 ^ k) ∧ 8 ≤ f.ioSize ↔
      f.blockSize ≤ 0x20000 ∨ 0x100000 ≤ f.blockSize ∨ ∃ k, f.blockSize = 2 ^ k) ∧
    ((∀ alignedAlloc storage, (getFileData alignedAlloc storage f).isSome) ↔
      f.blockSize ≤ 0x20000 ∨ 0x100000 ≤ f.blockSize ∨ ∃ k, f.blockSize = 2 ^ k) := by
  have halignment : 8 ≤ f.ioSize := by
    have hbounds := f.ioSize_bounds
    omega
  rw [and_iff_left halignment, ← ioSize_isPowerOf2_iff]
  refine ⟨Iff.rfl, fun hsome => ?_, fun hpow alignedAlloc storage =>
    getFileData_isSome alignedAlloc storage hpow⟩
  by_contra hpow
  have hnew := hsome (zeroBlocks []) {}
  simp [getFileData_new_eq_none _ hpow] at hnew

def oddBlockFile : FileOnDisk where
  fileSize := 1
  blockSize := 0x30000
  reads := [.bytes [97]]
  length_le chunk h := by
    cases List.mem_singleton.mp h
    decide

theorem not_ioSize_acceptable : isPowerOf2 oddBlockFile.ioSize = false ∧
    ¬ (∃ k, oddBlockFile.ioSize = 2 ^ k) ∧ getFileData (zeroBlocks []) {} oddBlockFile = none := by
  have hrefused : isPowerOf2 oddBlockFile.ioSize = false := by decide
  have hpow : ¬ ∃ k, oddBlockFile.ioSize = 2 ^ k := by
    rw [← isPowerOf2_iff, hrefused]
    simp
  exact ⟨hrefused, hpow, getFileData_new_eq_none _ hpow⟩

end Alignment

section Parts

variable {alloc : Allocator}

/-- A file that does not change while it is read, and the parts that the calls of `read` return
before the one that returns 0. -/
structure PartedFile where
  content : Bytes
  blockSize : Nat
  parts : List Bytes
  ne_nil : ∀ part ∈ parts, part ≠ []
  flatten_parts : parts.flatten = content

namespace PartedFile

variable (p : PartedFile)

theorem length_le {part : Bytes} (h : part ∈ p.parts) : part.length ≤ p.content.length := by
  rw [← p.flatten_parts]
  exact (List.sublist_flatten_of_mem h).length_le

def onDisk : FileOnDisk where
  fileSize := p.content.length
  blockSize := p.blockSize
  reads := p.parts.map .bytes ++ [.bytes []]
  length_le chunk h := by
    rcases List.mem_append.mp h with h | h
    · obtain ⟨part, hpart, heq⟩ := List.mem_map.mp h
      cases heq
      exact p.length_le hpart
    · cases List.mem_singleton.mp h
      exact Nat.zero_le _

theorem chunks_onDisk : chunks p.onDisk.reads = p.parts := by
  have hchunks : ∀ parts : List Bytes, (∀ part ∈ parts, part ≠ []) →
      chunks (parts.map .bytes ++ [.bytes []]) = parts := by
    intro parts hne
    induction parts with
    | nil => rfl
    | cons part parts ih =>
      rw [List.map_cons, List.cons_append, chunks, if_neg (hne part List.mem_cons_self),
        ih fun part hpart => hne part (List.mem_cons_of_mem _ hpart)]
  exact hchunks p.parts p.ne_nil

theorem eq_of_length {part : Bytes} (h : part ∈ p.parts)
    (hlength : part.length = p.content.length) : p.parts = [p.content] := by
  obtain ⟨front, back, hparts⟩ := List.append_of_mem h
  have hflatten := p.flatten_parts
  have hsum : front.flatten.length + (part.length + back.flatten.length) = p.content.length := by
    rw [← hflatten, hparts]
    simp
  have hfront : front = [] := by
    rw [List.eq_nil_iff_forall_not_mem]
    intro part' hpart'
    have hpos := List.length_pos_iff.mpr (p.ne_nil part' (hparts ▸ List.mem_append_left _ hpart'))
    have hle := (List.sublist_flatten_of_mem hpart').length_le
    omega
  have hback : back = [] := by
    rw [List.eq_nil_iff_forall_not_mem]
    intro part' hpart'
    have hmem : part' ∈ p.parts := by simp [hparts, hpart']
    have hpos := List.length_pos_iff.mpr (p.ne_nil part' hmem)
    have hle := (List.sublist_flatten_of_mem hpart').length_le
    omega
  subst hfront hback
  rw [← hflatten, hparts]
  simp

theorem readAll_whole (h : p.parts = [p.content]) (data : Nat → UInt8) :
    (List.range p.content.length).map (readAll p.onDisk.reads data) = p.content := by
  have hne : p.content ≠ [] := p.ne_nil _ (h ▸ List.mem_singleton_self _)
  have hread : readAll p.onDisk.reads data = overwrite p.content data := by
    simp [onDisk, h, readAll, hne]
  refine List.ext_getElem (by simp) fun i hi hi' => ?_
  simp [hread, overwrite, hi']

theorem readAll_last (h : p.parts ≠ [p.content]) (data : Nat → UInt8) :
    readAll p.onDisk.reads data (p.content.length - 1) = data (p.content.length - 1) := by
  refine readAll_of_le fun part hpart => ?_
  rw [chunks_onDisk] at hpart
  have hle := p.length_le hpart
  have hshort : part.length ≠ p.content.length := fun hfull => h (p.eq_of_length hpart hfull)
  omega

/-- Whatever files have been scanned before, the buffer begins with the content when
`GetFileData` returns. -/
def ReadsContent (alloc : Allocator) : Prop :=
  ∀ before storage storage', storageAfter alloc before = some storage →
    getFileData (alloc before) storage p.onDisk = some storage' →
      storage'.currentBuffer.map (fun data => (List.range p.content.length).map data) =
        some p.content

theorem realloc_currentBuffer {alignedAlloc : AlignedAlloc} {storage storage' : ResizableArray}
    {neededSize neededAlignment : Nat}
    (h : storage.realloc alignedAlloc neededSize neededAlignment = some storage') :
    ∃ data, storage'.currentBuffer = some data := by
  unfold ResizableArray.realloc at h
  split_ifs at h with hneeds
  · rw [Option.map_map, Option.map_eq_some_iff] at h
    obtain ⟨block, -, rfl⟩ := h
    exact ⟨_, rfl⟩
  · cases hbuffer : storage.currentBuffer with
    | none => simp [hbuffer] at hneeds
    | some data =>
      obtain rfl := Option.some.inj h
      exact ⟨zeroTail neededSize data, by simp [hbuffer]⟩

theorem getFileData_after_filledFile (alloc : Allocator) (hne : p.content ≠ []) (letter : UInt8) :
    ∃ storage storage' data, storageAfter alloc [filledFile p.content.length letter] = some storage ∧
      getFileData (alloc [filledFile p.content.length letter]) storage p.onDisk = some storage' ∧
      storage'.currentBuffer = some (readAll p.onDisk.reads data) ∧
      ∀ i < p.content.length, data i = letter := by
  have hsize : p.content.length ≠ 0 := by simpa using hne
  obtain ⟨storage, data, hstorage, hbuffer, hdata, hbufferSize, halignment⟩ :=
    storageAfter_filledFile alloc hsize letter
  have hrealloc : storage.realloc (alloc [filledFile p.content.length letter]) p.onDisk.fileSize
      p.onDisk.ioSize = some { storage with currentBuffer := some (zeroTail p.content.length data) } :=
    realloc_of_fits hbuffer hbufferSize.ge (p.onDisk.ioSize_bounds.2.trans halignment)
  refine ⟨storage, { storage with
    currentBuffer := some (readAll p.onDisk.reads (zeroTail p.content.length data)) },
    zeroTail p.content.length data, hstorage, ?_, rfl, fun i hi => ?_⟩
  · rw [getFileData, hrealloc]
    rfl
  · rw [zeroTail, if_neg (by omega), hdata i hi]

/-- The read of a file gives its content exactly when the first call of `read` returns all of it. -/
theorem readsContent_iff (alloc : Allocator) (p : PartedFile) (hne : p.content ≠ []) :
    p.ReadsContent alloc ↔ p.parts = [p.content] := by
  constructor
  · intro h
    by_contra hparts
    have hlast : p.content.length - 1 < p.content.length := by
      have hpos := List.length_pos_iff.mpr hne
      omega
    obtain ⟨letter, hletter⟩ : ∃ letter, letter ≠ p.content[p.content.length - 1] := by
      by_cases hzero : p.content[p.content.length - 1] = 0
      · exact ⟨1, by simp [hzero]⟩
      · exact ⟨0, Ne.symm hzero⟩
    obtain ⟨storage, storage', data, hstorage, hread, hbuffer, hdata⟩ :=
      p.getFileData_after_filledFile alloc hne letter
    have hbytes := h _ storage storage' hstorage hread
    rw [hbuffer, Option.map_some, Option.some.injEq] at hbytes
    have hbyte : p.content[p.content.length - 1] = letter := by
      rw [← hdata _ hlast, ← p.readAll_last hparts data, List.getElem_of_eq hbytes.symm hlast]
      simp
    exact hletter hbyte.symm
  · intro hparts before storage storage' _ hread
    obtain ⟨storage₁, hrealloc, rfl⟩ := Option.map_eq_some_iff.mp hread
    obtain ⟨data, hbuffer⟩ := realloc_currentBuffer hrealloc
    simp only [hbuffer, Option.map_some, p.readAll_whole hparts]

end PartedFile

def onePart : PartedFile where
  content := [97, 98]
  blockSize := 4096
  parts := [[97, 98]]
  ne_nil := by decide
  flatten_parts := rfl

theorem readsContent_iff_onePart : onePart.content ≠ [] ∧ onePart.ReadsContent zeroBlocks := by
  have hne : onePart.content ≠ [] := by decide
  exact ⟨hne, (PartedFile.readsContent_iff zeroBlocks onePart hne).mpr rfl⟩

def twoParts : PartedFile where
  content := [97, 98]
  blockSize := 4096
  parts := [[97], [98]]
  ne_nil := by decide
  flatten_parts := rfl

/-- The buffer of a new thread gets `b` and a zero. -/
theorem not_readsContent_twoParts : ¬ twoParts.ReadsContent zeroBlocks := by
  intro h
  have hbytes : [98, 0] = twoParts.content := Option.some.inj (h [] {} _ rfl rfl)
  exact absurd hbytes (by decide)

end Parts

end Ucg
