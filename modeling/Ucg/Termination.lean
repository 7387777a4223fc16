import Ucg.ScanInvariant

/-! Termination of `ScanFile`. An empty match leaves the cursor where it is, so progress
is the cursor together with the choice of the options. -/

namespace Ucg

open Segments Iteration

/-- With `PCRE2_NOTEMPTY_ATSTART` the engine does not return the empty match at the start
offset. -/
def Pcre2Match.NotEmptyAtStart (pcre2Match : Pcre2Match) : Prop :=
  ∀ so, pcre2Match so .notEmptyAtStartAnchored ≠ .found so so

/-- Twice the bytes that are left, and one more while the next search may match empty. -/
def ScanState.remaining (file : Bytes) (s : ScanState) : Nat :=
  2 * (file.length - s.ovector.stop) + if s.ovector.start = some s.ovector.stop then 0 else 1

namespace FileScannerPCRE2

variable {fs : FileScannerPCRE2} {pcre2Match : Pcre2Match} {file : Bytes} {s : ScanState}

theorem package_remaining {so a b n : Nat}
    (h : 2 * (file.length - b) + (if a = b then 0 else 1) < n) :
    (s.package file so a b).Holds (fun t => t.remaining file < n) (fun _ => True) := by
  have hlt : ∀ t : ScanState, t.ovector = ⟨some a, b⟩ → t.remaining file < n := by
    intro t ht
    simpa only [ScanState.remaining, ht, Option.some.injEq] using h
  exact ScanState.package_holds (fun l _ _ => hlt _ rfl) (fun l m _ _ _ => hlt _ rfl)
    (fun _ _ _ _ => trivial)

theorem matchFrom_progress (hin : pcre2Match.InBounds file) (hempty : pcre2Match.NotEmptyAtStart)
    (hlit : fs.mUseLiteral = true → fs.mLiteralSearchString.bytes ≠ []) {so a b : Nat}
    (hso : so ≤ file.length) (hrc : fs.matchFrom pcre2Match file s.options so = .found a b)
    (hat : s.ovector.start = some s.ovector.stop → so = s.ovector.stop)
    (hle : s.ovector.stop ≤ so) :
    2 * (file.length - b) + (if a = b then 0 else 1) < s.remaining file := by
  obtain ⟨hsa, hab, hb⟩ := matchFrom_bounds hin hso hrc
  simp only [ScanState.remaining]
  have hmove : s.ovector.start = some s.ovector.stop → ¬ (a = so ∧ b = so) := by
    rintro hs ⟨rfl, rfl⟩
    simp only [ScanState.options, if_pos hs, matchFrom] at hrc
    split at hrc
    · rename_i huse
      rcases resolveLiteralMatch_spec fs.sysHasSse42 hso fs.mLiteralSearchString.nulFree with
        ⟨q, hq, -⟩ | ⟨hq, -⟩
      · rw [hq] at hrc
        obtain ⟨rfl, hlen⟩ := MatchRc.found.inj hrc
        exact hlit huse (List.length_eq_zero_iff.mp (by omega))
      · rw [hq] at hrc
        simp at hrc
    · exact hempty _ hrc
  split <;> split <;> rename_i h1 h2
  · have := hmove h2
    have := hat h2
    omega
  · omega
  · have := hmove h2
    have := hat h2
    omega
  · omega

theorem scanFileStep_progress (hin : pcre2Match.InBounds file)
    (hempty : pcre2Match.NotEmptyAtStart)
    (hlit : fs.mUseLiteral = true → fs.mLiteralSearchString.bytes ≠ [])
    (h : Sound fs pcre2Match file s) :
    (fs.scanFileStep pcre2Match file s).Holds (fun t => t.remaining file < s.remaining file)
      (fun _ => True) := by
  refine scanFileStep_holds (fun _ => trivial) (fun _ _ => trivial) (fun _ _ => trivial) ?_
  intro so _ hend hskip
  obtain ⟨hle, hso⟩ := skipAhead_bounds h.stop_le hskip
  have hat : s.ovector.start = some s.ovector.stop → so = s.ovector.stop := by
    intro hs
    rw [ScanState.options, if_pos hs] at hskip
    exact skipAhead_retry hskip
  refine searchFrom_holds (fun _ _ => trivial) ?_ (fun _ _ => trivial) (fun _ => trivial) ?_
  · intro _ hs
    have hlt := hend hs
    have := hat hs
    have := h.stop_le
    obtain ⟨hnext, -⟩ := skipContinuationBytes_spec file (so + 1)
    simp only [ScanState.remaining, retryFailed, if_pos hs]
    split <;> split <;> omega
  · intro a b hrc
    exact package_remaining (matchFrom_progress hin hempty hlit hso hrc hat hle)

theorem scanFile_done (hin : pcre2Match.InBounds file) (hempty : pcre2Match.NotEmptyAtStart)
    (hlit : fs.mUseLiteral = true → fs.mLiteralSearchString.bytes ≠ [])
    {I : ScanState → Prop} {Q : ScanResult → Prop}
    (hstep : ∀ s, Sound fs pcre2Match file s → I s → (fs.scanFileStep pcre2Match file s).Holds I Q)
    (hinit : I {}) : ∃ n r, fs.scanFile pcre2Match file n = .done r ∧ Q r := by
  have hprogress : ∀ s, Sound fs pcre2Match file s ∧ I s → (fs.scanFileStep pcre2Match file s).Holds
      (fun t => (Sound fs pcre2Match file t ∧ I t) ∧ t.remaining file < s.remaining file) Q := by
    rintro s ⟨hs, hi⟩
    have h₁ := hs.step hin
    have h₂ := hstep s hs hi
    have h₃ := scanFileStep_progress hin hempty hlit hs
    exact ((h₁.and h₂).and h₃).mono (fun _ ht => ht) (fun _ hr => hr.1.2)
  obtain ⟨r, hr, hq⟩ := terminates_of_measure (ScanState.remaining file) hprogress
    ⟨sound_init, hinit⟩
  exact ⟨_, r, hr, hq⟩

theorem matchFrom_empty_literal (huse : fs.mUseLiteral = true)
    (hnil : fs.mLiteralSearchString.bytes = []) {options : MatchOptions} {so : Nat}
    (hso : so ≤ file.length) : fs.matchFrom pcre2Match file options so = .found so so := by
  have hocc : OccursAt file fs.mLiteralSearchString.bytes so := by
    rw [hnil]
    exact ⟨hso, rfl⟩
  rw [matchFrom, if_pos huse]
  rcases resolveLiteralMatch_spec fs.sysHasSse42 hso fs.mLiteralSearchString.nulFree with
    ⟨q, hq, hle, -, hbefore⟩ | ⟨-, hno⟩
  · have heq : q = so := by
      by_contra hne
      exact hbefore so (Nat.le_refl so) (by omega) hocc
    rw [hq, heq, hnil]
    rfl
  · exact (hno so (Nat.le_refl so) hocc).elim

structure Stuck (file : Bytes) (s : ScanState) : Prop where
  startOffset : s.startOffset = 0
  stop : s.ovector.stop = 0
  lineNo : s.lineNo = 1
  searchEnd : s.prevLinenoSearchEnd = 0
  isAt : ∀ m ∈ s.ml, m.IsAt file 0 0

theorem stuck_init : Stuck file {} := ⟨rfl, rfl, rfl, rfl, by simp⟩

theorem Stuck.step (huse : fs.mUseLiteral = true) (hnil : fs.mLiteralSearchString.bytes = [])
    (hfile : file ≠ []) (h : Stuck file s) :
    (fs.scanFileStep pcre2Match file s).Holds (Stuck file) (fun _ => False) := by
  have hpos : 0 < file.length := List.length_pos_iff.mpr hfile
  have hcount : s.lineNo + countLinesSinceLastMatchDefault file s.prevLinenoSearchEnd 0 = 1 := by
    rw [h.lineNo, h.searchEnd, ← lineOf_zero newline file]
    exact lineOf_add_countLines (Nat.le_refl 0) (Nat.zero_le _)
  refine scanFileStep_holds (fun hguard => ?_) (fun _ hend => ?_) (fun _ hskip => ?_)
    (fun so _ _ hskip => ?_)
  · have := h.startOffset
    omega
  · have hstop := h.stop
    rw [hend] at hstop
    dsimp only at hstop
    omega
  · rw [skipAhead, if_neg (by simp [huse])] at hskip
    simp at hskip
  · rw [skipAhead, if_neg (by simp [huse]), h.stop] at hskip
    obtain rfl := Option.some.inj hskip
    rw [searchFrom_found (matchFrom_empty_literal huse hnil (Nat.zero_le _))]
    refine ScanState.package_holds (fun l hl _ => ?_) (fun l m hl _ hm => ?_) (fun l _ _ hnone => ?_)
    · exact ⟨rfl, rfl, hl.trans hcount, rfl, h.isAt⟩
    · have hline : l = lineOf newline file 0 := (hl.trans hcount).trans (lineOf_zero newline file).symm
      refine ⟨rfl, rfl, hl.trans hcount, rfl, fun m' hm' => ?_⟩
      rcases List.mem_append.mp hm' with hm' | hm'
      · exact h.isAt m' hm'
      · exact List.mem_singleton.mp hm' ▸ Match.isAt_of_new? (Nat.zero_le _) (hline ▸ hm)
    · simp [Match.new?] at hnone

theorem not_terminates_of_empty_literal (huse : fs.mUseLiteral = true)
    (hnil : fs.mLiteralSearchString.bytes = []) (hfile : file ≠ []) :
    ¬ Terminates (fs.scanFileStep pcre2Match file) {} :=
  not_terminates_of_closed (fun _ h => Stuck.step huse hnil hfile h) stuck_init

/-- The engine of the empty regex. -/
theorem matchesEmpty_inBounds (file : Bytes) :
    Pcre2Match.InBounds (fun so options => if options = .none then .found so so else .noMatch) file := by
  intro so options a b hso h
  dsimp only at h
  split at h
  · obtain ⟨rfl, rfl⟩ := MatchRc.found.inj h
    exact ⟨Nat.le_refl so, Nat.le_refl so, hso⟩
  · cases h

theorem matchesEmpty_notEmptyAtStart : Pcre2Match.NotEmptyAtStart
    (fun so options => if options = .none then .found so so else .noMatch) := fun so h => by
  simp at h

/-- The scan of a file ends for every pattern but the empty one without case folding and
word boundaries, which becomes an empty literal. -/
theorem scanFile_terminates_iff {sse ic wr lit : Bool} {info : PatternInfo} {p : Pattern}
    (hin : pcre2Match.InBounds file) (hempty : pcre2Match.NotEmptyAtStart) :
    Terminates ((analyzed sse ic wr lit info p).scanFileStep pcre2Match file) {} ↔
      ¬ (p.bytes = [] ∧ ic = false ∧ wr = false ∧ file ≠ []) := by
  constructor
  · rintro hterm ⟨hp, rfl, rfl, hfile⟩
    have huse : (analyzed sse false false lit info p).mUseLiteral = true :=
      analyzed_mUseLiteral.mpr ⟨rfl, rfl, Or.inr (by rw [hp]; rfl)⟩
    have hnil : (analyzed sse false false lit info p).mLiteralSearchString.bytes = [] := by
      rw [analyzed_mLiteralSearchString huse, hp]
    exact not_terminates_of_empty_literal huse hnil hfile hterm
  · intro hcond
    by_cases hfile : file = []
    · subst hfile
      exact ⟨1, ⟨[], .finished⟩, run_succ_done (by simp [scanFileStep]) 0⟩
    · have hlit : (analyzed sse ic wr lit info p).mUseLiteral = true →
          (analyzed sse ic wr lit info p).mLiteralSearchString.bytes ≠ [] := by
        intro huse hnil
        obtain ⟨hic, hwr, -⟩ := analyzed_mUseLiteral.mp huse
        rw [analyzed_mLiteralSearchString huse] at hnil
        exact hcond ⟨hnil, hic, hwr, hfile⟩
      obtain ⟨n, r, hr, -⟩ := scanFile_done (I := fun _ => True) (Q := fun _ => True) hin hempty hlit
        (fun s _ _ => by cases (analyzed sse ic wr lit info p).scanFileStep pcre2Match file s <;> trivial)
        trivial
      exact ⟨n, r, hr⟩

theorem scanFile_terminates_iff_empty_regex :
    let pcre2Match : Pcre2Match := fun so options => if options = .none then .found so so else .noMatch
    Terminates ((analyzed true true false false ⟨none, 0, 0⟩ Pattern.empty).scanFileStep pcre2Match
      [97]) {} := by
  intro pcre2Match
  exact (scanFile_terminates_iff (matchesEmpty_inBounds [97]) matchesEmpty_notEmptyAtStart).mpr
    (by simp)

/-- Without `--ignore-case` the same search never ends. -/
theorem scanFile_empty_pattern_loops :
    let pcre2Match : Pcre2Match := fun so options => if options = .none then .found so so else .noMatch
    pcre2Match.InBounds [97] ∧ pcre2Match.NotEmptyAtStart ∧
      ¬ Terminates ((analyzed true false false false ⟨none, 0, 0⟩ Pattern.empty).scanFileStep
        pcre2Match [97]) {} := by
  intro pcre2Match
  exact ⟨matchesEmpty_inBounds [97], matchesEmpty_notEmptyAtStart,
    not_terminates_of_empty_literal (by decide) (by decide) (by decide)⟩

end FileScannerPCRE2

end Ucg
