import Ucg.LiteralMatch
import Ucg.CodeUnitTable

/-! `FileScannerPCRE2::AnalyzeRegex`: which shortcuts a scanner takes around the engine. -/

namespace Ucg

/-- The answers of `pcre2_pattern_info` about the first code unit. -/
structure PatternInfo where
  firstBitmap : Option (Nat → UInt8)
  firstCodeType : Nat
  firstCodeUnit : UInt8

def Pattern.empty : Pattern := ⟨[], by simp⟩

def Pattern.take (p : Pattern) (n : Nat) : Pattern :=
  ⟨p.bytes.take n, fun h => p.nulFree (List.mem_of_mem_take h)⟩

/-- The members that `ScanFile` reads. The tables hold their valid entries only, so their
lengths are `m_end_fpcu_table` and `m_end_ranges_table`, and the length of
`mLiteralSearchString` is `m_literal_search_string_len`. -/
structure FileScannerPCRE2 where
  sysHasSse42 : Bool
  mIgnoreCase : Bool
  mWordRegexp : Bool
  mPatternIsLiteral : Bool
  mCompiledCuBitmap : Bytes := []
  mCompiledRangeBitmap : Bytes := []
  mLiteralSearchString : Pattern := Pattern.empty
  mUseLiteral : Bool := false
  mUseLitPrefix : Bool := false
  mUseFirstCodeUnitTable : Bool := false
  mUseRangePairTable : Bool := false

/-- The bytes `\^$.[]()?*+{}`. -/
def metachars : Bytes := [92, 94, 36, 46, 91, 93, 40, 41, 63, 42, 43, 123, 125]

def alternation : UInt8 := 124

def isPatternLiteral (regex : Bytes) : Bool :=
  ! regex.any fun c => metachars.contains c || c == alternation

def getLiteralPrefixLen (regex : Bytes) : Nat :=
  if regex.contains alternation then 1
  else
    let firstMetacharPos := regex.findIdx metachars.contains
    if firstMetacharPos = regex.length then 1
    else
      -- One of `?*{` takes the byte before it out of the prefix.
      let firstMetacharPos :=
        if 1 < firstMetacharPos ∧ [63, 42, 123].contains (regex.getD firstMetacharPos 0) then
          firstMetacharPos - 1
        else firstMetacharPos
      min firstMetacharPos 255

namespace FileScannerPCRE2

/-- The first half of `AnalyzeRegex`, up to the single first code unit. -/
def analyzeFirstCodeUnit (fs : FileScannerPCRE2) (info : PatternInfo) : FileScannerPCRE2 :=
  match info.firstBitmap with
  | some firstBitmap =>
    let cu := constructCodeUnitTable firstBitmap
    let ranges := constructRangePairTable cu
    let fs := { fs with mCompiledCuBitmap := cu, mCompiledRangeBitmap := ranges }
    if 0 < cu.length ∧ cu.length < ranges.length then { fs with mUseFirstCodeUnitTable := true }
    else if 0 < ranges.length then { fs with mUseRangePairTable := true }
    else fs
  | none =>
    if info.firstCodeType = 1 ∧ fs.mIgnoreCase = false then
      { fs with mCompiledCuBitmap := [info.firstCodeUnit], mUseFirstCodeUnitTable := true }
    else fs

/-- The second half of `AnalyzeRegex`, the literal and literal prefix searches. -/
def analyzeLiteral (fs : FileScannerPCRE2) (regexPassedIn : Pattern) : FileScannerPCRE2 :=
  if fs.mIgnoreCase = false ∧ fs.mWordRegexp = false then
    if fs.mPatternIsLiteral || isPatternLiteral regexPassedIn.bytes then
      { fs with mLiteralSearchString := regexPassedIn, mUseLiteral := true }
    else if fs.mUseFirstCodeUnitTable then
      let litPrefixLen := getLiteralPrefixLen regexPassedIn.bytes
      if 1 < litPrefixLen then
        { fs with mLiteralSearchString := regexPassedIn.take litPrefixLen, mUseLitPrefix := true }
      else fs
    else fs
  else fs

def analyzeRegex (fs : FileScannerPCRE2) (info : PatternInfo) (regexPassedIn : Pattern) :
    FileScannerPCRE2 :=
  (fs.analyzeFirstCodeUnit info).analyzeLiteral regexPassedIn

/-- A scanner whose members have the values of their initialisers and the given options,
analysed. -/
def analyzed (sysHasSse42 ignoreCase wordRegexp patternIsLiteral : Bool) (info : PatternInfo)
    (regexPassedIn : Pattern) : FileScannerPCRE2 :=
  analyzeRegex { sysHasSse42 := sysHasSse42, mIgnoreCase := ignoreCase, mWordRegexp := wordRegexp,
                 mPatternIsLiteral := patternIsLiteral } info regexPassedIn

def Skips (fs : FileScannerPCRE2) : Prop :=
  fs.mUseLitPrefix = true ∨ fs.mUseFirstCodeUnitTable = true ∨ fs.mUseRangePairTable = true

instance (fs : FileScannerPCRE2) : Decidable fs.Skips := by
  unfold Skips
  infer_instance

variable {fs : FileScannerPCRE2} {info : PatternInfo} {p : Pattern}

@[simp] theorem analyzeFirstCodeUnit_options :
    (fs.analyzeFirstCodeUnit info).mIgnoreCase = fs.mIgnoreCase ∧
      (fs.analyzeFirstCodeUnit info).mWordRegexp = fs.mWordRegexp ∧
      (fs.analyzeFirstCodeUnit info).mPatternIsLiteral = fs.mPatternIsLiteral := by
  unfold analyzeFirstCodeUnit
  split
  · dsimp only
    split_ifs <;> simp
  · split_ifs <;> simp

@[simp] theorem analyzeFirstCodeUnit_literal :
    (fs.analyzeFirstCodeUnit info).mUseLiteral = fs.mUseLiteral ∧
      (fs.analyzeFirstCodeUnit info).mUseLitPrefix = fs.mUseLitPrefix ∧
      (fs.analyzeFirstCodeUnit info).sysHasSse42 = fs.sysHasSse42 := by
  unfold analyzeFirstCodeUnit
  split
  · dsimp only
    split_ifs <;> simp
  · split_ifs <;> simp

@[simp] theorem analyzeLiteral_tables :
    (fs.analyzeLiteral p).mUseFirstCodeUnitTable = fs.mUseFirstCodeUnitTable ∧
      (fs.analyzeLiteral p).mUseRangePairTable = fs.mUseRangePairTable ∧
      (fs.analyzeLiteral p).mCompiledCuBitmap = fs.mCompiledCuBitmap ∧
      (fs.analyzeLiteral p).mCompiledRangeBitmap = fs.mCompiledRangeBitmap := by
  unfold analyzeLiteral
  dsimp only
  split_ifs <;> simp

theorem analyzed_mUseLiteral {sse ic wr lit : Bool} :
    (analyzed sse ic wr lit info p).mUseLiteral = true ↔
      ic = false ∧ wr = false ∧ (lit = true ∨ isPatternLiteral p.bytes = true) := by
  unfold analyzed analyzeRegex analyzeLiteral
  dsimp only
  split_ifs <;> simp_all

theorem analyzeFirstCodeUnit_of_unknown (hb : info.firstBitmap = none) (ht : info.firstCodeType ≠ 1) :
    fs.analyzeFirstCodeUnit info = fs := by
  simp [analyzeFirstCodeUnit, hb, ht]

theorem analyzeLiteral_mUseLitPrefix (hoff : fs.mUseLitPrefix = false)
    (h : (fs.analyzeLiteral p).mUseLitPrefix = true) : fs.mUseFirstCodeUnitTable = true := by
  unfold analyzeLiteral at h
  dsimp only at h
  split_ifs at h <;> simp_all

theorem analyzed_skips {sse ic wr lit : Bool} (h : (analyzed sse ic wr lit info p).Skips) :
    info.firstBitmap.isSome = true ∨ info.firstCodeType = 1 := by
  by_contra hno
  simp only [not_or, Bool.not_eq_true, Option.isSome_eq_false_iff, Option.isNone_iff_eq_none] at hno
  rw [analyzed, analyzeRegex, analyzeFirstCodeUnit_of_unknown hno.1 hno.2] at h
  rcases h with h | h | h
  · have := analyzeLiteral_mUseLitPrefix rfl h
    simp at this
  · simp at h
  · simp at h

/-- The pattern itself is searched for, and no prefix of it. -/
theorem analyzed_of_mUseLiteral {sse ic wr lit : Bool}
    (h : (analyzed sse ic wr lit info p).mUseLiteral = true) :
    ∃ fs : FileScannerPCRE2, fs.mUseLitPrefix = false ∧
      analyzed sse ic wr lit info p = { fs with mLiteralSearchString := p, mUseLiteral := true } := by
  rw [analyzed_mUseLiteral] at h
  unfold analyzed analyzeRegex analyzeLiteral
  dsimp only
  rw [if_pos (by simp [h.1, h.2.1]), if_pos (by simpa using h.2.2)]
  exact ⟨_, by simp, rfl⟩

theorem analyzed_mLiteralSearchString {sse ic wr lit : Bool}
    (h : (analyzed sse ic wr lit info p).mUseLiteral = true) :
    (analyzed sse ic wr lit info p).mLiteralSearchString = p := by
  obtain ⟨fs, -, hanalyzed⟩ := analyzed_of_mUseLiteral h
  rw [hanalyzed]

theorem analyzed_tables_of_bitmap (sse ic wr lit : Bool) (p : Pattern) {bitmap : Nat → UInt8}
    (hb : info.firstBitmap = some bitmap) :
    (analyzed sse ic wr lit info p).mCompiledCuBitmap = constructCodeUnitTable bitmap ∧
      (analyzed sse ic wr lit info p).mCompiledRangeBitmap =
        constructRangePairTable (constructCodeUnitTable bitmap) := by
  simp only [analyzed, analyzeRegex, analyzeLiteral_tables, analyzeFirstCodeUnit, hb]
  split_ifs <;> simp

theorem analyzed_mUseLitPrefix {sse ic wr lit : Bool}
    (h : (analyzed sse ic wr lit info p).mUseLiteral = true) :
    (analyzed sse ic wr lit info p).mUseLitPrefix = false := by
  obtain ⟨fs, hprefix, hanalyzed⟩ := analyzed_of_mUseLiteral h
  rw [hanalyzed, hprefix]

theorem analyzed_mUseRangePairTable {sse ic wr lit : Bool} (hb : info.firstBitmap = none) :
    (analyzed sse ic wr lit info p).mUseRangePairTable = false := by
  simp only [analyzed, analyzeRegex, analyzeLiteral_tables, analyzeFirstCodeUnit, hb]
  split_ifs <;> rfl

theorem analyzed_mUseLitPrefix_ignoreCase {sse wr lit : Bool} :
    (analyzed sse true wr lit info p).mUseLitPrefix = false := by
  unfold analyzed analyzeRegex analyzeLiteral
  rw [if_neg (by simp)]
  simp

theorem analyzed_mUseFirstCodeUnitTable (sse wr lit : Bool) (p : Pattern)
    (hb : info.firstBitmap = none) (ht : info.firstCodeType = 1) :
    (analyzed sse false wr lit info p).mUseFirstCodeUnitTable = true := by
  simp [analyzed, analyzeRegex, analyzeFirstCodeUnit, hb, ht]

theorem analyzed_mCompiledCuBitmap {sse ic wr lit : Bool} (hb : info.firstBitmap = none)
    (h : (analyzed sse ic wr lit info p).mUseFirstCodeUnitTable = true) :
    info.firstCodeType = 1 ∧
      (analyzed sse ic wr lit info p).mCompiledCuBitmap = [info.firstCodeUnit] := by
  simp only [analyzed, analyzeRegex, analyzeLiteral_tables, analyzeFirstCodeUnit, hb] at h ⊢
  split_ifs at h ⊢ with hc
  exact ⟨hc.1, rfl⟩

theorem analyzed_mUseFirstCodeUnitTable_ignoreCase {sse wr lit : Bool} (hb : info.firstBitmap = none) :
    (analyzed sse true wr lit info p).mUseFirstCodeUnitTable = false := by
  simp [analyzed, analyzeRegex, analyzeFirstCodeUnit, hb]

end FileScannerPCRE2

end Ucg
