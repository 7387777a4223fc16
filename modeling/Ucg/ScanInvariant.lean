import Ucg.ScanFilePcre

/-! The line bookkeeping that both scan loops share, and what every run keeps of it. -/

namespace Ucg

open Segments Iteration

/-- The line counter stands at `searchEnd`, and the matches added so far lie on different
lines in order, each at a place that `found` allows. -/
structure LinesSound (file : Bytes) (found : Nat → Nat → Prop)
    (lineNo prevLineno searchEnd : Nat) (ml : List Match) : Prop where
  lineNo_eq : lineNo = lineOf newline file searchEnd
  prev_le : prevLineno ≤ lineNo
  le_prev : ∀ m ∈ ml, m.mLineNumber ≤ prevLineno
  increasing : ml.Pairwise fun m m' => m.mLineNumber < m'.mLineNumber
  isAt : ∀ m ∈ ml, ∃ a b, found a b ∧ a ≤ b ∧ b ≤ file.length ∧ m.IsAt file a b

theorem reported_of_invariant {fs : FileScannerPCRE2} {pcre2Match : Pcre2Match} {file : Bytes}
    {I : ScanState → Prop} {P : List Match → Prop}
    (hstep : ∀ s, I s → (fs.scanFileStep pcre2Match file s).Holds I (fun r => r.ml = s.ml))
    (hreport : ∀ s, I s → P s.ml) (hinit : I {}) (n : Nat) :
    P (reported (fs.scanFile pcre2Match file n)) := by
  have hrun := run_holds (Q := fun r => P r.ml)
    (fun s h => (hstep s h).mono (fun _ ht => ht) (fun r hr => hr ▸ hreport s h)) n hinit
  change (fs.scanFile pcre2Match file n).Holds _ _ at hrun
  cases hout : fs.scanFile pcre2Match file n with
  | next s =>
    rw [hout] at hrun
    exact hreport s hrun
  | done r =>
    rw [hout] at hrun
    exact hrun

theorem pcreReported_of_invariant {pcreExec : PcreExec} {file : Bytes}
    {I : PcreState → Prop} {P : List Match → Prop}
    (hstep : ∀ s, I s → (pcreScanFileStep pcreExec file s).Holds I (fun r => r.ml = s.ml))
    (hreport : ∀ s, I s → P s.ml) (hinit : I {}) (n : Nat) :
    P (pcreReported (pcreScanFile pcreExec file n)) := by
  have hrun := run_holds (Q := fun r => P r.ml)
    (fun s h => (hstep s h).mono (fun _ ht => ht) (fun r hr => hr ▸ hreport s h)) n hinit
  change (pcreScanFile pcreExec file n).Holds _ _ at hrun
  cases hout : pcreScanFile pcreExec file n with
  | next s =>
    rw [hout] at hrun
    exact hreport s hrun
  | done r =>
    rw [hout] at hrun
    exact hrun

variable {file : Bytes} {found : Nat → Nat → Prop} {lineNo prevLineno searchEnd : Nat}
  {ml : List Match}

theorem linesSound_init (file : Bytes) (found : Nat → Nat → Prop) :
    LinesSound file found 1 0 0 [] :=
  ⟨(lineOf_zero newline file).symm, by omega, by simp, by simp, by simp⟩

theorem LinesSound.count_eq (h : LinesSound file found lineNo prevLineno searchEnd ml) {a : Nat}
    (ha : searchEnd ≤ a) (hlen : a ≤ file.length) :
    lineNo + countLinesSinceLastMatchDefault file searchEnd a = lineOf newline file a := by
  rw [h.lineNo_eq, lineOf_add_countLines ha hlen]

theorem LinesSound.same (h : LinesSound file found lineNo prevLineno searchEnd ml) {a l : Nat}
    (ha : searchEnd ≤ a) (hlen : a ≤ file.length)
    (hl : l = lineNo + countLinesSinceLastMatchDefault file searchEnd a) :
    LinesSound file found l prevLineno a ml := by
  refine ⟨hl.trans (h.count_eq ha hlen), ?_, h.le_prev, h.increasing, h.isAt⟩
  have := h.prev_le
  omega

theorem LinesSound.new (h : LinesSound file found lineNo prevLineno searchEnd ml) {a b l : Nat}
    {m : Match} (ha : searchEnd ≤ a) (hab : a ≤ b) (hb : b ≤ file.length) (hfound : found a b)
    (hl : l = lineNo + countLinesSinceLastMatchDefault file searchEnd a)
    (hne : l ≠ prevLineno) (hm : Match.new? file a b l = some m) :
    LinesSound file found l l a (ml ++ [m]) := by
  have hline : l = lineOf newline file a := hl.trans (h.count_eq ha (Nat.le_trans hab hb))
  have hat : m.IsAt file a b := Match.isAt_of_new? (Nat.le_trans hab hb) (hline ▸ hm)
  have hlt : prevLineno < l := by have := h.prev_le; omega
  have hml : m.mLineNumber = l := hat.lineNumber.trans hline.symm
  refine ⟨hline, Nat.le_refl l, ?_, ?_, ?_⟩
  · intro m' hm'
    rcases List.mem_append.mp hm' with hm' | hm'
    · have := h.le_prev m' hm'
      omega
    · exact Nat.le_of_eq (List.mem_singleton.mp hm' ▸ hml)
  · refine List.pairwise_append.mpr ⟨h.increasing, by simp, ?_⟩
    intro m₁ hm₁ m₂ hm₂
    have := h.le_prev m₁ hm₁
    rw [List.mem_singleton.mp hm₂]
    omega
  · intro m' hm'
    rcases List.mem_append.mp hm' with hm' | hm'
    · exact h.isAt m' hm'
    · exact ⟨a, b, hfound, hab, hb, List.mem_singleton.mp hm' ▸ hat⟩

/-- The engine returns matches at or after the start offset and inside the file. -/
def Pcre2Match.InBounds (pcre2Match : Pcre2Match) (file : Bytes) : Prop :=
  ∀ so options a b, so ≤ file.length → pcre2Match so options = .found a b →
    so ≤ a ∧ a ≤ b ∧ b ≤ file.length

def PcreExec.InBounds (pcreExec : PcreExec) (file : Bytes) : Prop :=
  ∀ (so : Nat) options a b, so ≤ file.length →
    pcreExec file.length so options = .found a b → so ≤ a ∧ a ≤ b ∧ b ≤ file.length

namespace FileScannerPCRE2

variable {fs : FileScannerPCRE2} {pcre2Match : Pcre2Match}

theorem matchFrom_bounds (h : pcre2Match.InBounds file) {options : MatchOptions} {so a b : Nat}
    (hso : so ≤ file.length) (hrc : fs.matchFrom pcre2Match file options so = .found a b) :
    so ≤ a ∧ a ≤ b ∧ b ≤ file.length := by
  unfold matchFrom at hrc
  split at hrc
  · rcases resolveLiteralMatch_spec fs.sysHasSse42 hso fs.mLiteralSearchString.nulFree with
      ⟨q, hq, hle, hocc, -⟩ | ⟨hq, -⟩
    · rw [hq] at hrc
      have := hocc.1
      obtain ⟨rfl, rfl⟩ := MatchRc.found.inj hrc
      omega
    · rw [hq] at hrc
      simp at hrc
  · exact h so options a b hso hrc

structure Sound (fs : FileScannerPCRE2) (pcre2Match : Pcre2Match) (file : Bytes)
    (s : ScanState) : Prop where
  lines : LinesSound file
    (fun a b => ∃ so options, so ≤ file.length ∧
      fs.matchFrom pcre2Match file options so = .found a b)
    s.lineNo s.prevLineno s.prevLinenoSearchEnd s.ml
  searchEnd_le : s.prevLinenoSearchEnd ≤ s.ovector.stop
  stop_le : s.ovector.stop ≤ file.length

theorem sound_init : Sound fs pcre2Match file {} :=
  ⟨linesSound_init file _, Nat.le_refl 0, Nat.zero_le _⟩

theorem Sound.package (hin : pcre2Match.InBounds file) {s : ScanState}
    (h : Sound fs pcre2Match file s) {so a b : Nat} {options : MatchOptions}
    (hso : s.ovector.stop ≤ so) (hle : so ≤ file.length)
    (hrc : fs.matchFrom pcre2Match file options so = .found a b) :
    (s.package file so a b).Holds (Sound fs pcre2Match file) (fun r => r.ml = s.ml) := by
  obtain ⟨hsa, hab, hb⟩ := matchFrom_bounds hin hle hrc
  have ha : s.prevLinenoSearchEnd ≤ a := by have := h.searchEnd_le; omega
  refine ScanState.package_holds ?_ ?_ ?_
  · intro l hl _
    exact ⟨h.lines.same ha (Nat.le_trans hab hb) hl, hab, hb⟩
  · intro l m hl hne hm
    exact ⟨h.lines.new ha hab hb ⟨so, options, hle, hrc⟩ hl hne hm, hab, hb⟩
  · intro l _ _ _
    rfl

theorem Sound.retryFailed {s : ScanState} (h : Sound fs pcre2Match file s) {so : Nat}
    (hso : s.ovector.stop ≤ so) (hlt : so < file.length) :
    Sound fs pcre2Match file (fs.retryFailed file s so) := by
  obtain ⟨hle, hmax, -⟩ := skipContinuationBytes_spec file (so + 1)
  have := h.searchEnd_le
  exact ⟨h.lines, by simp only [FileScannerPCRE2.retryFailed]; omega,
    by simp only [FileScannerPCRE2.retryFailed]; omega⟩

theorem Sound.step (hin : pcre2Match.InBounds file) {s : ScanState}
    (h : Sound fs pcre2Match file s) :
    (fs.scanFileStep pcre2Match file s).Holds (Sound fs pcre2Match file) (fun r => r.ml = s.ml) := by
  refine scanFileStep_holds (fun _ => rfl) (fun _ _ => rfl) (fun _ _ => rfl) ?_
  intro so _ hend hskip
  obtain ⟨hso, hle⟩ := skipAhead_bounds h.stop_le hskip
  refine searchFrom_holds (fun _ _ => rfl) ?_ (fun _ _ => rfl) (fun _ => rfl) ?_
  · intro _ hempty
    have hopt : s.options = .notEmptyAtStartAnchored := by simp [ScanState.options, hempty]
    have heq : so = s.ovector.stop := skipAhead_retry (hopt ▸ hskip)
    have := hend hempty
    have := h.stop_le
    exact h.retryFailed hso (by omega)
  · intro a b hrc
    exact h.package hin hso hle hrc

end FileScannerPCRE2

end Ucg
