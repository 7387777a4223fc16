import Mathlib.Algebra.Order.Ring.Int
import Ucg.ScanFile

/-! `FileScannerPCRE::ScanFile`, the loop of the scanner for the older library, whose
offsets are `int`s. -/

namespace Ucg

open Iteration

inductive PcreRc
  | noMatch
  | error (rc : Int)
  | ovectorTooSmall
  | found (start stop : Int)
  deriving DecidableEq, Repr

/-- `pcre_exec` on one file, as a function of the subject length, the start offset and the
options. -/
abbrev PcreExec := Int → Int → MatchOptions → PcreRc

/-- The conversion of a `size_t` to `int`, modulo `2 ^ 32`. -/
def toInt32 (n : Nat) : Int := Int.bmod n 4294967296

def toSizeT (i : Int) : Nat := (i % 2 ^ 64).toNat

structure PcreOvector where
  start : Int
  stop : Int
  deriving DecidableEq, Repr

structure PcreState where
  ovector : PcreOvector := ⟨-1, 0⟩
  lineNo : Nat := 1
  prevLineno : Nat := 0
  prevLinenoSearchEnd : Nat := 0
  ml : List Match := []
  deriving DecidableEq, Repr

def PcreState.options (s : PcreState) : MatchOptions :=
  if s.ovector.start = s.ovector.stop then .notEmptyAtStartAnchored else .none

def PcreState.package (file : Bytes) (s : PcreState) (a b : Int) :
    Outcome PcreState ScanResult :=
  let start := toSizeT a
  let lineNo := s.lineNo + countLinesSinceLastMatchDefault file s.prevLinenoSearchEnd start
  let s := { s with ovector := ⟨a, b⟩, lineNo, prevLinenoSearchEnd := start }
  if lineNo = s.prevLineno then .next s
  else
    match Match.new? file start (toSizeT b) lineNo with
    | some m => .next { s with prevLineno := lineNo, ml := s.ml ++ [m] }
    | none => .done ⟨s.ml, .exception⟩

/-- One evaluation of the loop. Errors of the engine and of the `Match` constructor leave
`ScanFile` as exceptions. -/
def pcreScanFileStep (pcreExec : PcreExec) (file : Bytes) (s : PcreState) :
    Outcome PcreState ScanResult :=
  let signedFileSize : Int := file.length
  if s.ovector.stop < signedFileSize then
    let startOffset := s.ovector.stop
    if s.ovector.start = s.ovector.stop ∧ s.ovector.start = signedFileSize then
      .done ⟨s.ml, .finished⟩
    else
      match pcreExec (toInt32 file.length) startOffset s.options with
      | .noMatch =>
        if s.options = .none then .done ⟨s.ml, .finished⟩
        else .next { s with ovector := ⟨s.ovector.start, startOffset + 1⟩ }
      | .error _ => .done ⟨s.ml, .exception⟩
      | .ovectorTooSmall => .done ⟨s.ml, .ovectorTooSmall⟩
      | .found a b => s.package file a b
  else .done ⟨s.ml, .finished⟩

def pcreScanFile (pcreExec : PcreExec) (file : Bytes) (n : Nat) : Outcome PcreState ScanResult :=
  run (pcreScanFileStep pcreExec file) n {}

def pcreReported : Outcome PcreState ScanResult → List Match
  | .next s => s.ml
  | .done r => r.ml

theorem toInt32_of_lt {n : Nat} (h : n < 2 ^ 31) : toInt32 n = n := by
  have hlt : n < 2147483648 := h
  unfold toInt32
  rw [Int.bmod_def]
  omega

theorem toSizeT_natCast {n : Nat} (h : n < 2 ^ 64) : toSizeT n = n := by
  have hlt : (n : Int) < 2 ^ 64 := by exact_mod_cast h
  rw [toSizeT, Int.emod_eq_of_lt (Int.natCast_nonneg n) hlt, Int.toNat_natCast]

theorem PcreState.package_holds {file : Bytes} {s : PcreState} {a b : Int}
    {I : PcreState → Prop} {Q : ScanResult → Prop}
    (hsame : ∀ l,
      l = s.lineNo + countLinesSinceLastMatchDefault file s.prevLinenoSearchEnd (toSizeT a) →
      l = s.prevLineno →
      I { s with ovector := ⟨a, b⟩, lineNo := l, prevLinenoSearchEnd := toSizeT a })
    (hnew : ∀ l m,
      l = s.lineNo + countLinesSinceLastMatchDefault file s.prevLinenoSearchEnd (toSizeT a) →
      l ≠ s.prevLineno → Match.new? file (toSizeT a) (toSizeT b) l = some m →
      I { ovector := ⟨a, b⟩, lineNo := l, prevLineno := l, prevLinenoSearchEnd := toSizeT a,
          ml := s.ml ++ [m] })
    (hthrow : Q ⟨s.ml, .exception⟩) :
    (s.package file a b).Holds I Q := by
  unfold PcreState.package
  dsimp only
  split
  · rename_i heq
    exact hsame _ rfl heq
  · rename_i hne
    split
    · rename_i m hm
      exact hnew _ m rfl hne hm
    · exact hthrow

end Ucg
