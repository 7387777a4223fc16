import Ucg.Regex

/-! The constructor of `FileScannerPCRE2`: the regex it hands to the library, and the
conditions under which it does not throw. -/

namespace Ucg

inductive JitRetval
  | ok
  | badOption
  | error
  deriving DecidableEq, Repr

structure Pcre2Code where
  compiled : CompiledRegex
  jitRetval : JitRetval
  numCallouts : Nat

/-- `pcre2_compile` with `PCRE2_CASELESS` on or off. `none` is a null pointer. -/
abbrev Pcre2Compile := Bytes → Bool → Option Pcre2Code

def backslash : UInt8 := 92

def quoteBegin : Bytes := [backslash, 81]

def quoteEnd : Bytes := [backslash, 69]

/-- `(?:`. -/
def calloutPrefix : Bytes := [40, 63, 58]

/-- `)(?=.*?$)(?C1)`. -/
def calloutSuffix : Bytes := [41, 40, 63, 61, 46, 42, 63, 36, 41, 40, 63, 67, 49, 41]

def addCallout (regex : Bytes) : Bytes := calloutPrefix ++ regex ++ calloutSuffix

def wrapRegex (regex : Bytes) (wordRegexp patternIsLiteral : Bool) : Bytes :=
  let regex := if patternIsLiteral then quoteBegin ++ regex ++ quoteEnd else regex
  -- `\b(?:` and `)\b`
  let regex := if wordRegexp then [backslash, 98, 40, 63, 58] ++ regex ++ [41, backslash, 98] else regex
  addCallout regex

/-- A compiled regex that does not make the constructor throw. -/
def Pcre2Code.Accepted (code : Pcre2Code) : Prop :=
  code.jitRetval ≠ .error ∧ code.numCallouts ≤ 1

instance (code : Pcre2Code) : Decidable code.Accepted := inferInstanceAs (Decidable (_ ∧ _))

/-- The constructor. `none` is a `FileScannerException`. -/
def FileScannerPCRE2.new? (pcre2Compile : Pcre2Compile) (sysHasSse42 : Bool) (regex : Pattern)
    (ignoreCase wordRegexp patternIsLiteral : Bool) : Option (FileScannerPCRE2 × CompiledRegex) :=
  match pcre2Compile (wrapRegex regex.bytes wordRegexp patternIsLiteral) ignoreCase with
  | none => none
  | some code =>
    if code.Accepted then
      some (analyzed sysHasSse42 ignoreCase wordRegexp patternIsLiteral code.compiled.info regex,
        code.compiled)
    else none

/-- The scan of one file with a constructed scanner. -/
def FileScannerPCRE2.scan (scanner : FileScannerPCRE2 × CompiledRegex) (file : Bytes) (n : Nat) :
    Iteration.Outcome ScanState ScanResult :=
  scanner.1.scanFile (scanner.2.regex file).pcre2Match file n

def Pcre2Compile.Accepts (pcre2Compile : Pcre2Compile) (regex : Bytes) (ignoreCase : Bool) : Prop :=
  ∃ code, pcre2Compile regex ignoreCase = some code ∧ code.Accepted

theorem FileScannerPCRE2.new?_isSome_iff {pcre2Compile : Pcre2Compile} {sse : Bool} {p : Pattern}
    {ic wr lit : Bool} : (new? pcre2Compile sse p ic wr lit).isSome = true ↔
      pcre2Compile.Accepts (wrapRegex p.bytes wr lit) ic := by
  unfold new? Pcre2Compile.Accepts
  split
  · simp_all
  · split <;> simp_all

theorem FileScannerPCRE2.new?_of_accepted {pcre2Compile : Pcre2Compile} {sse : Bool} {p : Pattern}
    {ic wr lit : Bool} {code : Pcre2Code}
    (hcode : pcre2Compile (wrapRegex p.bytes wr lit) ic = some code) (h : code.Accepted) :
    new? pcre2Compile sse p ic wr lit =
      some (analyzed sse ic wr lit code.compiled.info p, code.compiled) := by
  rw [new?, hcode]
  exact if_pos h

end Ucg
