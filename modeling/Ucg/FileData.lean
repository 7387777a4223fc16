import Ucg.Pipeline

/-! The buffer that a scanner thread recycles for the data of its files, and the reads that make
a scan depend on its file only. -/

namespace Ucg

inductive ReadResult
  | bytes (chunk : Bytes)
  | error

/-- What the constructor of `File` meets: `st_size`, `st_blksize`, and what the calls of `read`
return. Behind the list the file is at its end. -/
structure FileOnDisk where
  fileSize : Nat
  blockSize : Nat
  reads : List ReadResult
  length_le : ∀ chunk, .bytes chunk ∈ reads → chunk.length ≤ fileSize

def isPowerOf2 (val : Nat) : Bool := val != 0 && (val &&& (val - 1)) == 0

def clamp (val lo hi : Nat) : Nat := if val > hi then hi else if val < lo then lo else val

def FileOnDisk.ioSize (f : FileOnDisk) : Nat := clamp f.blockSize 0x20000 0x100000

def vectorSize : Nat := 1024 / 8

/-- What `aligned_alloc` returns: some content, at an address that has at least the alignment
asked for. -/
structure Block (neededAlignment : Nat) where
  data : Nat → UInt8
  alignment : Nat
  le_alignment : neededAlignment ≤ alignment

/-- The call, with the alignment and the size asked for. -/
abbrev AlignedAlloc := ∀ alignment : Nat, Nat → Block alignment

/-- `none` is the exception `bad_alloc`. -/
def overalignedAlloc (alignedAlloc : AlignedAlloc)
    (neededAlignment neededSize : Nat) : Option (Block neededAlignment) :=
  if !isPowerOf2 neededAlignment || neededAlignment < 8 then none
  else
    let requestedSize := neededSize + vectorSize + neededAlignment -
      ((neededSize + vectorSize) &&& (neededAlignment - 1))
    some (alignedAlloc neededAlignment requestedSize)

structure ResizableArray where
  currentBufferSize : Nat := 0
  currentBufferAlignment : Nat := 0
  currentBuffer : Option (Nat → UInt8) := none

def zeroTail (neededSize : Nat) (data : Nat → UInt8) : Nat → UInt8 :=
  fun i => if neededSize ≤ i ∧ i < neededSize + vectorSize then 0 else data i

def ResizableArray.realloc (alignedAlloc : AlignedAlloc)
    (storage : ResizableArray) (neededSize neededAlignment : Nat) : Option ResizableArray :=
  let storage? :=
    if storage.currentBuffer.isNone || storage.currentBufferSize < neededSize ||
        storage.currentBufferAlignment < neededAlignment then
      (overalignedAlloc alignedAlloc neededAlignment neededSize).map fun block =>
        ⟨neededSize, block.alignment, some block.data⟩
    else some storage
  storage?.map fun storage =>
    { storage with currentBuffer := storage.currentBuffer.map (zeroTail neededSize) }

def overwrite (chunk : Bytes) (data : Nat → UInt8) : Nat → UInt8 := fun i => chunk.getD i (data i)

/-- The loop around `read`, which reads to the start of the buffer each time. An error ends it
like the end of the file. -/
def readAll : List ReadResult → (Nat → UInt8) → Nat → UInt8
  | .bytes chunk :: reads, data => if chunk = [] then data else readAll reads (overwrite chunk data)
  | _, data => data

def getFileData (alignedAlloc : AlignedAlloc) (storage : ResizableArray)
    (f : FileOnDisk) : Option ResizableArray :=
  (storage.realloc alignedAlloc f.fileSize f.ioSize).map fun storage =>
    { storage with currentBuffer := storage.currentBuffer.map (readAll f.reads) }

/-- The body of the loop of `FileScanner::Run` up to `ScanFile`, with the bytes handed to it. An
empty file is skipped, and a `bad_alloc` ends the program. -/
def loadFile (alignedAlloc : AlignedAlloc) (storage : ResizableArray)
    (f : FileOnDisk) : Option (ResizableArray × Option Bytes) :=
  if f.fileSize = 0 then some (storage, none)
  else (getFileData alignedAlloc storage f).map fun storage =>
    (storage, storage.currentBuffer.map fun data => (List.range f.fileSize).map data)

/-- What `aligned_alloc` does after some files. The last of them is the first of the list. -/
abbrev Allocator := List FileOnDisk → AlignedAlloc

def storageAfter (alloc : Allocator) : List FileOnDisk → Option ResizableArray
  | [] => some {}
  | f :: before =>
    (storageAfter alloc before).bind fun storage => (loadFile (alloc before) storage f).map Prod.fst

/-- The bytes of `f` that `ScanFile` gets when the thread has scanned the files `before`. -/
def handed (alloc : Allocator) (before : List FileOnDisk) (f : FileOnDisk) : Option (Option Bytes) :=
  (storageAfter alloc before).bind fun storage => (loadFile (alloc before) storage f).map Prod.snd

def outcome (scanFile : Bytes → List Match) : Option Bytes → FileOutcome
  | none => .empty
  | some bytes => .scanned (scanFile bytes)

section Reads

variable {reads : List ReadResult} {data data' : Nat → UInt8} {i : Nat} {chunk : Bytes}

/-- What is read before the end of the file or an error. -/
def chunks : List ReadResult → List Bytes
  | .bytes chunk :: reads => if chunk = [] then [] else chunk :: chunks reads
  | _ => []

theorem mem_reads_of_mem_chunks (h : chunk ∈ chunks reads) : .bytes chunk ∈ reads := by
  induction reads with
  | nil => cases h
  | cons result reads ih =>
    cases result with
    | error => cases h
    | bytes first =>
      by_cases hempty : first = []
      · simp [chunks, hempty] at h
      · simp only [chunks, hempty, if_false] at h
        rcases List.mem_cons.mp h with rfl | h
        · exact List.mem_cons_self
        · exact List.mem_cons_of_mem _ (ih h)

theorem overwrite_of_lt (h : i < chunk.length) : overwrite chunk data i = overwrite chunk data' i := by
  simp [overwrite, List.getD_eq_getElem?_getD, h]

theorem overwrite_of_le (h : chunk.length ≤ i) : overwrite chunk data i = data i := by
  simp [overwrite, List.getD_eq_getElem?_getD, h]

theorem overwrite_congr (h : data i = data' i) : overwrite chunk data i = overwrite chunk data' i := by
  simp [overwrite, h]

theorem readAll_congr (h : data i = data' i) : readAll reads data i = readAll reads data' i := by
  induction reads generalizing data data' with
  | nil => exact h
  | cons result reads ih =>
    cases result with
    | error => exact h
    | bytes chunk =>
      by_cases hchunk : chunk = []
      · simpa [readAll, hchunk] using h
      · simpa [readAll, hchunk] using ih (overwrite_congr h)

theorem readAll_of_lt (hchunk : chunk ∈ chunks reads) (h : i < chunk.length) :
    readAll reads data i = readAll reads data' i := by
  induction reads generalizing data data' with
  | nil => cases hchunk
  | cons result reads ih =>
    cases result with
    | error => cases hchunk
    | bytes first =>
      by_cases hempty : first = []
      · simp [chunks, hempty] at hchunk
      · simp only [chunks, hempty, if_false] at hchunk
        simp only [readAll, hempty, if_false]
        rcases List.mem_cons.mp hchunk with rfl | hchunk
        · exact readAll_congr (overwrite_of_lt h)
        · exact ih hchunk

theorem readAll_of_le (h : ∀ chunk ∈ chunks reads, chunk.length ≤ i) :
    readAll reads data i = data i := by
  induction reads generalizing data with
  | nil => rfl
  | cons result reads ih =>
    cases result with
    | error => rfl
    | bytes first =>
      by_cases hempty : first = []
      · simp [readAll, hempty]
      · simp only [chunks, hempty, if_false] at h
        simp only [readAll, hempty, if_false]
        rw [ih fun chunk hchunk => h chunk (List.mem_cons_of_mem _ hchunk)]
        exact overwrite_of_le (h first List.mem_cons_self)

end Reads

section Storage

variable {alignedAlloc : AlignedAlloc} {storage : ResizableArray}
  {f : FileOnDisk} {data : Nat → UInt8}

theorem FileOnDisk.ioSize_bounds (f : FileOnDisk) : 0x20000 ≤ f.ioSize ∧ f.ioSize ≤ 0x100000 := by
  unfold FileOnDisk.ioSize clamp
  split_ifs <;> omega

theorem overalignedAlloc_of_powerOf2 (alignedAlloc : AlignedAlloc) {neededAlignment : Nat}
    (hpow : isPowerOf2 neededAlignment = true) (h : 8 ≤ neededAlignment) (neededSize : Nat) :
    ∃ block, overalignedAlloc alignedAlloc neededAlignment neededSize = some block := by
  refine ⟨_, if_neg ?_⟩
  simp [hpow, h]

theorem realloc_of_powerOf2 (alignedAlloc : AlignedAlloc) (storage : ResizableArray)
    {neededAlignment : Nat} (hpow : isPowerOf2 neededAlignment = true) (h : 8 ≤ neededAlignment)
    (neededSize : Nat) :
    ∃ data, (storage.realloc alignedAlloc neededSize neededAlignment).map (·.currentBuffer) =
      some (some data) := by
  obtain ⟨block, hblock⟩ := overalignedAlloc_of_powerOf2 alignedAlloc hpow h neededSize
  unfold ResizableArray.realloc
  split_ifs with hneeds
  · exact ⟨zeroTail neededSize block.data, by simp [hblock]⟩
  · cases hbuffer : storage.currentBuffer with
    | none => simp [hbuffer] at hneeds
    | some data => exact ⟨zeroTail neededSize data, by simp [hbuffer]⟩

theorem realloc_of_fits (hbuffer : storage.currentBuffer = some data) {neededSize neededAlignment : Nat}
    (hsize : neededSize ≤ storage.currentBufferSize)
    (halignment : neededAlignment ≤ storage.currentBufferAlignment) :
    storage.realloc alignedAlloc neededSize neededAlignment =
      some { storage with currentBuffer := some (zeroTail neededSize data) } := by
  unfold ResizableArray.realloc
  rw [if_neg (by simp [hbuffer, hsize, halignment])]
  simp [hbuffer]

theorem loadFile_of_full (hsize : f.fileSize ≠ 0) (hpow : isPowerOf2 f.ioSize = true) {chunk : Bytes}
    (hchunk : chunk ∈ chunks f.reads) (hfull : chunk.length = f.fileSize) :
    (loadFile alignedAlloc storage f).map Prod.snd =
      some (some ((List.range f.fileSize).map (readAll f.reads fun _ => 0))) := by
  have halignment : 8 ≤ f.ioSize := by
    have hbounds := f.ioSize_bounds
    omega
  obtain ⟨data, hrealloc⟩ := realloc_of_powerOf2 alignedAlloc storage hpow halignment f.fileSize
  obtain ⟨storage', hstorage, hbuffer⟩ := Option.map_eq_some_iff.mp hrealloc
  have hsame : (List.range f.fileSize).map (readAll f.reads data) =
      (List.range f.fileSize).map (readAll f.reads fun _ => 0) := by
    refine List.map_congr_left fun i hi => readAll_of_lt hchunk ?_
    rw [hfull]
    exact List.mem_range.mp hi
  simp [loadFile, hsize, getFileData, hstorage, hbuffer, hsame]

theorem loadFile_of_fits (alignedAlloc : AlignedAlloc) (hf : f.fileSize ≠ 0)
    (hbuffer : storage.currentBuffer = some data) (hsize : f.fileSize ≤ storage.currentBufferSize)
    (halignment : f.ioSize ≤ storage.currentBufferAlignment) :
    (loadFile alignedAlloc storage f).map Prod.snd =
      some (some ((List.range f.fileSize).map (readAll f.reads (zeroTail f.fileSize data)))) := by
  simp [loadFile, hf, getFileData, realloc_of_fits hbuffer hsize halignment]

end Storage

section TwoRuns

variable {alloc : Allocator} {f : FileOnDisk}

/-- A file of one letter that one `read` returns in full. -/
def filledFile (fileSize : Nat) (letter : UInt8) : FileOnDisk where
  fileSize := fileSize
  blockSize := 0x100000
  reads := [.bytes (List.replicate fileSize letter)]
  length_le chunk h := by
    cases List.mem_singleton.mp h
    exact (List.length_replicate ..).le

theorem storageAfter_filledFile (alloc : Allocator) {fileSize : Nat} (hsize : fileSize ≠ 0)
    (letter : UInt8) : ∃ storage data, storageAfter alloc [filledFile fileSize letter] = some storage ∧
      storage.currentBuffer = some data ∧ (∀ i < fileSize, data i = letter) ∧
      storage.currentBufferSize = fileSize ∧ 0x100000 ≤ storage.currentBufferAlignment := by
  obtain ⟨block, hblock⟩ := overalignedAlloc_of_powerOf2 (alloc [])
    (by decide : isPowerOf2 0x100000 = true) (by decide) fileSize
  have hio : (filledFile fileSize letter).ioSize = 0x100000 := rfl
  have hnew : ({} : ResizableArray).realloc (alloc []) fileSize 0x100000 =
      some ⟨fileSize, block.alignment, some (zeroTail fileSize block.data)⟩ := by
    simp [ResizableArray.realloc, hblock]
  have hloaded : storageAfter alloc [filledFile fileSize letter] =
      some ⟨fileSize, block.alignment,
        some (readAll (filledFile fileSize letter).reads (zeroTail fileSize block.data))⟩ := by
    have hsame : (filledFile fileSize letter).fileSize = fileSize := rfl
    simp [storageAfter, loadFile, getFileData, hsame, hsize, hio, hnew]
  refine ⟨_, _, hloaded, rfl, fun i hi => ?_, rfl, block.le_alignment⟩
  have hne : List.replicate fileSize letter ≠ [] := by simpa using hsize
  simp [filledFile, readAll, hne, overwrite, hi]

theorem handed_after_filledFile (alloc : Allocator) (hsize : f.fileSize ≠ 0) (letter : UInt8) :
    ∃ bytes, handed alloc [filledFile f.fileSize letter] f = some (some bytes) ∧
      ((∀ chunk ∈ chunks f.reads, chunk.length ≠ f.fileSize) →
        bytes[f.fileSize - 1]? = some letter) := by
  obtain ⟨storage, data, hstorage, hbuffer, hdata, hbufferSize, halignment⟩ :=
    storageAfter_filledFile alloc hsize letter
  have hload := loadFile_of_fits (alloc [filledFile f.fileSize letter]) hsize hbuffer
    hbufferSize.ge (f.ioSize_bounds.2.trans halignment)
  refine ⟨_, by rw [handed, hstorage, Option.bind_some, hload], fun hshort => ?_⟩
  have hlast : f.fileSize - 1 < f.fileSize := by omega
  have hread : readAll f.reads (zeroTail f.fileSize data) (f.fileSize - 1) = letter := by
    rw [readAll_of_le fun chunk hchunk => ?_]
    · rw [zeroTail, if_neg (by omega), hdata _ hlast]
    · have hle := f.length_le chunk (mem_reads_of_mem_chunks hchunk)
      have hne := hshort chunk hchunk
      omega
  simp [hlast, hread]

/-- Whatever the allocator: the bytes that `ScanFile` gets do not depend on the files scanned
before if and only if the file is empty, or the buffer can be aligned and one `read` returns all
of the file. -/
theorem handed_eq_iff (alloc : Allocator) (f : FileOnDisk) :
    (∀ before₁ before₂, (storageAfter alloc before₁).isSome → (storageAfter alloc before₂).isSome →
      handed alloc before₁ f = handed alloc before₂ f ∧
      ∀ scanFile, (handed alloc before₁ f).map (outcome scanFile) =
        (handed alloc before₂ f).map (outcome scanFile)) ↔
    f.fileSize = 0 ∨
      isPowerOf2 f.ioSize = true ∧ ∃ chunk ∈ chunks f.reads, chunk.length = f.fileSize := by
  constructor
  · intro h
    by_contra hnot
    have hsize : f.fileSize ≠ 0 := fun hempty => hnot (Or.inl hempty)
    have hafter (letter : UInt8) : (storageAfter alloc [filledFile f.fileSize letter]).isSome := by
      obtain ⟨storage, _, hstorage, _⟩ := storageAfter_filledFile alloc hsize letter
      rw [hstorage]
      rfl
    obtain ⟨bytes, hbytes, hlast⟩ := handed_after_filledFile alloc hsize 0
    obtain ⟨bytes', hbytes', hlast'⟩ := handed_after_filledFile alloc hsize 1
    by_cases hpow : isPowerOf2 f.ioSize = true
    · have hshort : ∀ chunk ∈ chunks f.reads, chunk.length ≠ f.fileSize :=
        fun chunk hchunk hfull => hnot (Or.inr ⟨hpow, chunk, hchunk, hfull⟩)
      have hsame := (h _ _ (hafter 0) (hafter 1)).1
      rw [hbytes, hbytes', Option.some.injEq, Option.some.injEq] at hsame
      have hletters := (hlast hshort).symm.trans (hsame ▸ hlast' hshort)
      simp at hletters
    · have hsame := (h [] _ rfl (hafter 0)).1
      rw [hbytes] at hsame
      simp [handed, storageAfter, loadFile, hsize, getFileData, ResizableArray.realloc, overalignedAlloc,
        hpow] at hsame
  · intro h before₁ before₂ hbefore₁ hbefore₂
    obtain ⟨storage₁, hstorage₁⟩ := Option.isSome_iff_exists.mp hbefore₁
    obtain ⟨storage₂, hstorage₂⟩ := Option.isSome_iff_exists.mp hbefore₂
    have hsame : handed alloc before₁ f = handed alloc before₂ f := by
      rcases h with hempty | ⟨hpow, chunk, hchunk, hfull⟩
      · simp [handed, hstorage₁, hstorage₂, loadFile, hempty]
      · by_cases hsize : f.fileSize = 0
        · simp [handed, hstorage₁, hstorage₂, loadFile, hsize]
        · simp only [handed, hstorage₁, hstorage₂, Option.bind_some,
            loadFile_of_full hsize hpow hchunk hfull]
    exact ⟨hsame, fun scanFile => by rw [hsame]⟩

/-- A file of two bytes that has shrunk to one before it is read. -/
def shrunkFile : FileOnDisk where
  fileSize := 2
  blockSize := 4096
  reads := [.bytes [97]]
  length_le chunk h := by
    cases List.mem_singleton.mp h
    decide

def zeroBlocks : Allocator := fun _ alignment _ => ⟨fun _ => 0, alignment, le_rfl⟩

theorem not_handed_eq_shrunkFile :
    (storageAfter zeroBlocks [filledFile 2 120]).isSome ∧
      (storageAfter zeroBlocks [filledFile 2 122]).isSome ∧
      handed zeroBlocks [filledFile 2 120] shrunkFile = some (some [97, 120]) ∧
      handed zeroBlocks [filledFile 2 122] shrunkFile = some (some [97, 122]) :=
  ⟨rfl, rfl, rfl, rfl⟩

end TwoRuns

end Ucg
