import Ucg.AnalyzeRegex

/-! `FileScannerPCRE2::ScanFile`, one evaluation of its `while` loop at a time. -/

namespace Ucg

open Iteration Simd

/-- The options of one search: none, or `PCRE2_NOTEMPTY_ATSTART | PCRE2_ANCHORED`. -/
inductive MatchOptions
  | none
  | notEmptyAtStartAnchored
  deriving DecidableEq, Repr

abbrev Pcre2Match := Nat → MatchOptions → MatchRc

/-- The offset vector. `start` is `none` while it holds the `(size_t)-1` of the first iteration. -/
structure Ovector where
  start : Option Nat
  stop : Nat
  deriving DecidableEq, Repr

/-- The locals of the loop. `prevLinenoSearchEnd` is an offset into the file data. -/
structure ScanState where
  ovector : Ovector := ⟨none, 0⟩
  lineNo : Nat := 1
  prevLineno : Nat := 0
  prevLinenoSearchEnd : Nat := 0
  startOffset : Nat := 0
  ml : List Match := []
  deriving DecidableEq, Repr

/-- How `ScanFile` returns: behind the loop, with a message about the ovector, or through
the handler that prints an exception. -/
inductive ScanExit
  | finished
  | ovectorTooSmall
  | exception
  deriving DecidableEq, Repr

structure ScanResult where
  ml : List Match
  exit : ScanExit
  deriving DecidableEq, Repr

/-- The `while` over `(file_data[ovector[1]] & 0xC0) == 0x80`, on the bytes from `p` on. -/
def skipContinuationBytes : Bytes → Nat → Nat
  | [], p => p
  | c :: cs, p => if c &&& 0xC0 ≠ 0x80 then p else skipContinuationBytes cs (p + 1)

def ScanState.options (s : ScanState) : MatchOptions :=
  if s.ovector.start = some s.ovector.stop then .notEmptyAtStartAnchored else .none

/-- The match becomes a `Match` unless its line has one already. -/
def ScanState.package (file : Bytes) (s : ScanState) (startOffset a b : Nat) :
    Outcome ScanState ScanResult :=
  let lineNo := s.lineNo + countLinesSinceLastMatchDefault file s.prevLinenoSearchEnd a
  let s := { s with ovector := ⟨some a, b⟩, lineNo, prevLinenoSearchEnd := a, startOffset }
  if lineNo = s.prevLineno then .next s
  else
    match Match.new? file a b lineNo with
    | some m => .next { s with prevLineno := lineNo, ml := s.ml ++ [m] }
    | none => .done ⟨s.ml, .exception⟩

namespace FileScannerPCRE2

/-- The shortcuts before the engine. `none` leaves the loop. -/
def skipAhead (fs : FileScannerPCRE2) (file : Bytes) (options : MatchOptions)
    (startOffset : Nat) : Option Nat :=
  if options = .none ∧ fs.mUseLiteral = false then
    if fs.mUseLitPrefix then
      match resolveLiteralMatch fs.sysHasSse42 (fileMem file) file.length startOffset
        fs.mLiteralSearchString.bytes with
      | .found strMatch _ => if file.length < strMatch then none else some strMatch
      | _ => none
    else if fs.mUseFirstCodeUnitTable then
      let firstPossibleChar := startOffset + findFirstPossibleCodeUnitDefault fs.mCompiledCuBitmap
        (fileMem file) startOffset (file.length - startOffset)
      if firstPossibleChar ≠ file.length then some firstPossibleChar else none
    else if fs.mUseRangePairTable then
      let firstPossibleChar := startOffset + findFirstInRanges fs.mCompiledRangeBitmap
        (fileMem file) startOffset (file.length - startOffset)
      if firstPossibleChar ≠ file.length then some firstPossibleChar else none
    else some startOffset
  else some startOffset

def matchFrom (fs : FileScannerPCRE2) (pcre2Match : Pcre2Match) (file : Bytes)
    (options : MatchOptions) (startOffset : Nat) : MatchRc :=
  if fs.mUseLiteral then
    resolveLiteralMatch fs.sysHasSse42 (fileMem file) file.length startOffset
      fs.mLiteralSearchString.bytes
  else pcre2Match startOffset options

/-- The step past an empty match that has no non-empty alternative. A failed
`LiteralMatch` leaves the file size in both entries of the ovector. -/
def retryFailed (fs : FileScannerPCRE2) (file : Bytes) (s : ScanState) (startOffset : Nat) :
    ScanState :=
  { s with
    ovector := {
      start := if fs.mUseLiteral then some file.length else s.ovector.start
      stop := skipContinuationBytes (file.drop (startOffset + 1)) (startOffset + 1) }
    startOffset }

/-- The part of the loop body behind the shortcuts. -/
def searchFrom (fs : FileScannerPCRE2) (pcre2Match : Pcre2Match) (file : Bytes) (s : ScanState)
    (startOffset : Nat) : Outcome ScanState ScanResult :=
  match fs.matchFrom pcre2Match file s.options startOffset with
  | .noMatch =>
    if s.options = .none then .done ⟨s.ml, .finished⟩
    else .next (fs.retryFailed file s startOffset)
  | .error _ => .done ⟨s.ml, .exception⟩
  | .ovectorTooSmall => .done ⟨s.ml, .ovectorTooSmall⟩
  | .found a b => s.package file startOffset a b

/-- One evaluation of the loop. The guard tests the start offset of the iteration before. -/
def scanFileStep (fs : FileScannerPCRE2) (pcre2Match : Pcre2Match) (file : Bytes)
    (s : ScanState) : Outcome ScanState ScanResult :=
  if s.startOffset < file.length then
    if s.ovector.start = some s.ovector.stop ∧ s.ovector.start = some file.length then
      .done ⟨s.ml, .finished⟩
    else
      match fs.skipAhead file s.options s.ovector.stop with
      | none => .done ⟨s.ml, .finished⟩
      | some startOffset => fs.searchFrom pcre2Match file s startOffset
  else .done ⟨s.ml, .finished⟩

/-- `ScanFile` after at most `n` evaluations of its loop. -/
def scanFile (fs : FileScannerPCRE2) (pcre2Match : Pcre2Match) (file : Bytes) (n : Nat) :
    Outcome ScanState ScanResult :=
  run (fs.scanFileStep pcre2Match file) n {}

end FileScannerPCRE2

/-- The matches added so far, whether or not the loop has been left. -/
def reported : Outcome ScanState ScanResult → List Match
  | .next s => s.ml
  | .done r => r.ml

theorem skipContinuationBytes_spec (file : Bytes) (p : Nat) :
    p ≤ skipContinuationBytes (file.drop p) p ∧
      skipContinuationBytes (file.drop p) p ≤ max p file.length ∧
      (∀ i, p ≤ i → i < skipContinuationBytes (file.drop p) p →
        ∃ c, file[i]? = some c ∧ c &&& 0xC0 = 0x80) ∧
      ∀ c, file[skipContinuationBytes (file.drop p) p]? = some c → c &&& 0xC0 ≠ 0x80 := by
  induction h : file.drop p generalizing p with
  | nil =>
    have hlen := List.drop_eq_nil_iff.mp h
    simp only [skipContinuationBytes]
    exact ⟨Nat.le_refl p, by omega, fun i hi hi' => by omega,
      fun c hc => by rw [List.getElem?_eq_none hlen] at hc; simp at hc⟩
  | cons c cs ih =>
    have hat : file[p]? = some c := by
      have hdrop : (file.drop p)[0]? = file[p + 0]? := List.getElem?_drop
      simpa [h] using hdrop.symm
    have hcs : file.drop (p + 1) = cs := by
      rw [← List.drop_drop, h, List.drop_one, List.tail_cons]
    have hlt : p < file.length := (List.getElem?_eq_some_iff.mp hat).1
    simp only [skipContinuationBytes]
    split
    · rename_i hc
      exact ⟨Nat.le_refl p, by omega, fun i hi hi' => by omega,
        fun d hd => by rw [hat] at hd; exact Option.some.inj hd ▸ hc⟩
    · rename_i hc
      obtain ⟨hle, hmax, hskip, hstop⟩ := ih (p + 1) hcs
      refine ⟨by omega, by omega, fun i hi hi' => ?_, hstop⟩
      by_cases hip : i = p
      · exact ⟨c, hip ▸ hat, by simpa using hc⟩
      · exact hskip i (by omega) hi'

theorem ScanState.options_none {s : ScanState} :
    s.options = .none ↔ s.ovector.start ≠ some s.ovector.stop := by
  unfold ScanState.options
  split <;> simp_all

theorem ScanState.package_holds {file : Bytes} {s : ScanState} {so a b : Nat}
    {I : ScanState → Prop} {Q : ScanResult → Prop}
    (hsame : ∀ l, l = s.lineNo + countLinesSinceLastMatchDefault file s.prevLinenoSearchEnd a →
      l = s.prevLineno →
      I { s with ovector := ⟨some a, b⟩, lineNo := l, prevLinenoSearchEnd := a, startOffset := so })
    (hnew : ∀ l m, l = s.lineNo + countLinesSinceLastMatchDefault file s.prevLinenoSearchEnd a →
      l ≠ s.prevLineno → Match.new? file a b l = some m →
      I { ovector := ⟨some a, b⟩, lineNo := l, prevLineno := l, prevLinenoSearchEnd := a,
          startOffset := so, ml := s.ml ++ [m] })
    (hthrow : ∀ l, l = s.lineNo + countLinesSinceLastMatchDefault file s.prevLinenoSearchEnd a →
      l ≠ s.prevLineno → Match.new? file a b l = none → Q ⟨s.ml, .exception⟩) :
    (s.package file so a b).Holds I Q := by
  unfold ScanState.package
  dsimp only
  split
  · rename_i heq
    exact hsame _ rfl heq
  · rename_i hne
    split
    · rename_i m hm
      exact hnew _ m rfl hne hm
    · rename_i hm
      exact hthrow _ rfl hne hm

namespace FileScannerPCRE2

variable {fs : FileScannerPCRE2} {pcre2Match : Pcre2Match} {file : Bytes} {s : ScanState}

theorem searchFrom_holds {so : Nat} {I : ScanState → Prop} {Q : ScanResult → Prop}
    (hnone : fs.matchFrom pcre2Match file s.options so = .noMatch → s.options = .none →
      Q ⟨s.ml, .finished⟩)
    (hretry : fs.matchFrom pcre2Match file s.options so = .noMatch →
      s.ovector.start = some s.ovector.stop → I (fs.retryFailed file s so))
    (herror : ∀ rc, fs.matchFrom pcre2Match file s.options so = .error rc → Q ⟨s.ml, .exception⟩)
    (hsmall : fs.matchFrom pcre2Match file s.options so = .ovectorTooSmall →
      Q ⟨s.ml, .ovectorTooSmall⟩)
    (hfound : ∀ a b, fs.matchFrom pcre2Match file s.options so = .found a b →
      (s.package file so a b).Holds I Q) :
    (fs.searchFrom pcre2Match file s so).Holds I Q := by
  unfold searchFrom
  split
  · rename_i hrc
    split
    · rename_i hopt
      exact hnone hrc hopt
    · rename_i hopt
      exact hretry hrc (not_not.mp (ScanState.options_none.not.mp hopt))
  · rename_i rc hrc
    exact herror rc hrc
  · rename_i hrc
    exact hsmall hrc
  · rename_i a b hrc
    exact hfound a b hrc

theorem searchFrom_found {so a b : Nat}
    (h : fs.matchFrom pcre2Match file s.options so = .found a b) :
    fs.searchFrom pcre2Match file s so = s.package file so a b := by
  rw [searchFrom, h]

theorem searchFrom_noMatch {so : Nat} (h : fs.matchFrom pcre2Match file s.options so = .noMatch) :
    fs.searchFrom pcre2Match file s so =
      if s.options = .none then .done ⟨s.ml, .finished⟩ else .next (fs.retryFailed file s so) := by
  rw [searchFrom, h]

theorem scanFileStep_holds {I : ScanState → Prop} {Q : ScanResult → Prop}
    (hguard : file.length ≤ s.startOffset → Q ⟨s.ml, .finished⟩)
    (hend : s.startOffset < file.length → s.ovector = ⟨some file.length, file.length⟩ →
      Q ⟨s.ml, .finished⟩)
    (hskip : s.startOffset < file.length → fs.skipAhead file s.options s.ovector.stop = none →
      Q ⟨s.ml, .finished⟩)
    (hsearch : ∀ so, s.startOffset < file.length →
      (s.ovector.start = some s.ovector.stop → s.ovector.stop ≠ file.length) →
      fs.skipAhead file s.options s.ovector.stop = some so →
      (fs.searchFrom pcre2Match file s so).Holds I Q) :
    (fs.scanFileStep pcre2Match file s).Holds I Q := by
  unfold scanFileStep
  split
  · rename_i hlt
    split
    · rename_i hlast
      refine hend hlt ?_
      have hstop : s.ovector.stop = file.length := Option.some.inj (hlast.1.symm.trans hlast.2)
      cases ho : s.ovector
      simp_all
    · rename_i hlast
      split
      · rename_i hso
        exact hskip hlt hso
      · rename_i so hso
        refine hsearch so hlt (fun hs he => hlast ⟨hs, ?_⟩) hso
        rw [hs, he]
  · exact hguard (by omega)

theorem skipAhead_bounds {options : MatchOptions} {stop so : Nat} (hstop : stop ≤ file.length)
    (h : fs.skipAhead file options stop = some so) : stop ≤ so ∧ so ≤ file.length := by
  unfold skipAhead at h
  split at h
  · split at h
    · rcases resolveLiteralMatch_spec fs.sysHasSse42 hstop fs.mLiteralSearchString.nulFree with
        ⟨a, hrc, hle, hocc, -⟩ | ⟨hrc, -⟩
      · rw [hrc] at h
        dsimp only at h
        split at h
        · simp at h
        · obtain rfl := Option.some.inj h
          exact ⟨hle, by omega⟩
      · rw [hrc] at h
        simp at h
    · split at h
      · dsimp only at h
        have hle := findFirstPossibleCodeUnitDefault_le fs.mCompiledCuBitmap (fileMem file) stop
          (file.length - stop)
        split at h
        · have := Option.some.inj h
          omega
        · simp at h
      · split at h
        · dsimp only at h
          have hle := tableSearch_le cmpRanges fs.mCompiledRangeBitmap (fileMem file) stop
            (file.length - stop)
          change findFirstInRanges _ _ _ _ ≤ _ at hle
          split at h
          · have := Option.some.inj h
            omega
          · simp at h
        · have := Option.some.inj h
          omega
  · have := Option.some.inj h
    omega

theorem skipAhead_retry {stop so : Nat}
    (h : fs.skipAhead file .notEmptyAtStartAnchored stop = some so) : so = stop := by
  rw [skipAhead, if_neg (by simp)] at h
  exact (Option.some.inj h).symm

theorem skipAhead_plain {options : MatchOptions} {stop : Nat} (h : ¬ fs.Skips) :
    fs.skipAhead file options stop = some stop := by
  simp only [Skips, not_or, Bool.not_eq_true] at h
  simp [skipAhead, h]

end FileScannerPCRE2

end Ucg
