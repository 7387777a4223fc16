import Ucg.LiteralPath

/-! A shortcut before the engine that passes no match does not show in what a scan reports. -/

namespace Ucg

open Iteration FileScannerPCRE2

variable {file : Bytes} {r : Regex file} {fs fs' : FileScannerPCRE2} {s t : ScanState}

/-- The shortcuts of the scanner pass over no offset at which the regex matches. -/
structure PassesNoMatch (fs : FileScannerPCRE2) (r : Regex file) : Prop where
  mUseLiteral : fs.mUseLiteral = false
  found : ∀ stop so, stop ≤ file.length → fs.skipAhead file .none stop = some so →
    stop ≤ so ∧ ∀ q, stop ≤ q → q < so → r.matchAt q = none
  nothing : ∀ stop, stop ≤ file.length → fs.skipAhead file .none stop = none →
    ∀ q, stop ≤ q → r.matchAt q = none

structure NextMatch (r : Regex file) (stop a e : Nat) : Prop where
  le : stop ≤ a
  matchAt : r.matchAt a = some e
  before : ∀ q, stop ≤ q → q < a → r.matchAt q = none

theorem NextMatch.unique {stop a a' e e' : Nat} (h : NextMatch r stop a e) (h' : NextMatch r stop a' e') :
    a = a' ∧ e = e' := by
  have ha : a = a' := by
    rcases Nat.lt_trichotomy a a' with hlt | heq | hlt
    · exact absurd (h'.before a h.le hlt) (by simp [h.matchAt])
    · exact heq
    · exact absurd (h.before a' h'.le hlt) (by simp [h'.matchAt])
  subst ha
  exact ⟨rfl, Option.some.inj (h.matchAt.symm.trans h'.matchAt)⟩

theorem matchFrom_engine (huse : fs.mUseLiteral = false) (options : MatchOptions) (so : Nat) :
    fs.matchFrom r.pcre2Match file options so = r.pcre2Match so options := by
  rw [matchFrom, if_neg (by simp [huse])]

/-- A plain search finds the next match, wherever the shortcuts make it start. -/
theorem PassesNoMatch.scanFileStep (h : PassesNoMatch fs r) (hlt : s.startOffset < file.length)
    (hne : s.ovector.start ≠ some s.ovector.stop) (hstop : s.ovector.stop ≤ file.length) :
    (∃ so a e, so ≤ a ∧ NextMatch r s.ovector.stop a e ∧
      fs.scanFileStep r.pcre2Match file s = s.package file so a e) ∨
    ((∀ q, s.ovector.stop ≤ q → r.matchAt q = none) ∧
      fs.scanFileStep r.pcre2Match file s = .done ⟨s.ml, .finished⟩) := by
  rw [scanFileStep_plain hlt hne]
  cases hskip : fs.skipAhead file .none s.ovector.stop with
  | none => exact Or.inr ⟨h.nothing _ hstop hskip, rfl⟩
  | some so =>
    obtain ⟨hle, hpassed⟩ := h.found _ so hstop hskip
    have hoptions := ScanState.options_none.mpr hne
    have hmatch : fs.matchFrom r.pcre2Match file s.options so = r.pcre2Match so .none := by
      rw [matchFrom_engine h.mUseLiteral, hoptions]
    rcases Regex.pcre2Match_none (r := r) so with ⟨a, e, hrc, hsa, he, hbefore⟩ | ⟨hrc, hno⟩
    · refine Or.inl ⟨so, a, e, hsa, ⟨Nat.le_trans hle hsa, he, fun q hq hqa => ?_⟩,
        searchFrom_found (hmatch.trans hrc)⟩
      rcases Nat.lt_or_ge q so with hqs | hqs
      · exact hpassed q hq hqs
      · exact hbefore q hqs hqa
    · refine Or.inr ⟨fun q hq => ?_, ?_⟩
      · rcases Nat.lt_or_ge q so with hqs | hqs
        · exact hpassed q hq hqs
        · by_cases hqe : q ≤ file.length
          · exact hno q hqs hqe
          · cases hq' : r.matchAt q with
            | none => rfl
            | some e =>
              obtain ⟨h₁, h₂, -⟩ := Regex.matchAt_bounds hq'
              omega
      · exact (searchFrom_noMatch (hmatch.trans hrc)).trans (if_pos hoptions)

/-- Two scans that differ in the start offsets of their last searches only, which matters to
neither. -/
structure SameSearch (file : Bytes) (s t : ScanState) : Prop where
  same : t = { s with startOffset := t.startOffset }
  stop_le : s.ovector.stop ≤ file.length
  guard : (s.startOffset < file.length ↔ t.startOffset < file.length) ∨
    s.ovector = ⟨some file.length, file.length⟩

theorem SameSearch.package (hsame : t = { s with startOffset := t.startOffset }) {so so' a e : Nat}
    (hso : so ≤ a) (hso' : so' ≤ a) (hae : a ≤ e) (he : e ≤ file.length) :
    (s.package file so a e).Related (SameSearch file) (· = ·) (t.package file so' a e) := by
  have hnext : ∀ u v : ScanState, v = { u with startOffset := v.startOffset } →
      u.ovector = ⟨some a, e⟩ → u.startOffset = so → v.startOffset = so' → SameSearch file u v := by
    intro u v huv hov hu hv
    refine ⟨huv, by rw [hov]; exact he, ?_⟩
    by_cases ha : a < file.length
    · exact Or.inl (iff_of_true (by omega) (by omega))
    · obtain rfl : a = file.length := by omega
      obtain rfl : e = file.length := by omega
      exact Or.inr hov
  rw [hsame]
  unfold ScanState.package
  dsimp only
  split
  · exact hnext _ _ rfl rfl rfl rfl
  · split
    · exact hnext _ _ rfl rfl rfl rfl
    · exact rfl

theorem scanFileStep_retry (hlt : s.startOffset < file.length)
    (hempty : s.ovector.start = some s.ovector.stop) (hstop : s.ovector.stop ≠ file.length) :
    fs.scanFileStep r.pcre2Match file s = fs.searchFrom r.pcre2Match file s s.ovector.stop := by
  have hoptions : s.options = .notEmptyAtStartAnchored := by simp [ScanState.options, hempty]
  have hend : ¬ (s.ovector.start = some s.ovector.stop ∧ s.ovector.start = some file.length) := by
    rintro ⟨-, hend⟩
    exact hstop (Option.some.inj (hempty.symm.trans hend))
  have hskip : fs.skipAhead file .notEmptyAtStartAnchored s.ovector.stop = some s.ovector.stop := by
    rw [skipAhead, if_neg (by simp)]
  simp only [FileScannerPCRE2.scanFileStep, if_pos hlt, if_neg hend, hoptions, hskip]

theorem scanFileStep_finished (h : ¬ s.startOffset < file.length ∨
    s.ovector = ⟨some file.length, file.length⟩) :
    fs.scanFileStep r.pcre2Match file s = .done ⟨s.ml, .finished⟩ := by
  rw [FileScannerPCRE2.scanFileStep]
  rcases h with h | h
  · rw [if_neg h]
  · have hend : s.ovector.start = some s.ovector.stop ∧ s.ovector.start = some file.length := by
      rw [h]
      exact ⟨rfl, rfl⟩
    rw [if_pos hend, ite_self]

theorem SameSearch.retryFailed (h : SameSearch file s t) (hfs : fs.mUseLiteral = false)
    (hfs' : fs'.mUseLiteral = false) {p : Nat} (hp : p < file.length) :
    SameSearch file (fs.retryFailed file s p) (fs'.retryFailed file t p) := by
  obtain ⟨-, hmax, -⟩ := skipContinuationBytes_spec file (p + 1)
  refine ⟨?_, ?_, Or.inl Iff.rfl⟩
  · rw [FileScannerPCRE2.retryFailed, FileScannerPCRE2.retryFailed, hfs, hfs', h.same]
  · simp only [FileScannerPCRE2.retryFailed]
    omega

theorem SameSearch.step (hfs : PassesNoMatch fs r) (hfs' : PassesNoMatch fs' r) (s t : ScanState)
    (h : SameSearch file s t) :
    (fs.scanFileStep r.pcre2Match file s).Related (SameSearch file) (· = ·)
      (fs'.scanFileStep r.pcre2Match file t) := by
  have hov : t.ovector = s.ovector := by rw [h.same]
  have hml : t.ml = s.ml := by rw [h.same]
  by_cases hlast : s.ovector = ⟨some file.length, file.length⟩
  · rw [scanFileStep_finished (Or.inr hlast), scanFileStep_finished (Or.inr (hov.trans hlast)), hml]
    rfl
  have hguard := h.guard.resolve_right hlast
  by_cases hlt : s.startOffset < file.length
  · have hlt' := hguard.mp hlt
    by_cases hempty : s.ovector.start = some s.ovector.stop
    · -- a retry searches at the stop offset alone
      have hne : s.ovector.stop ≠ file.length := by
        intro hstop
        refine hlast ?_
        rw [← hstop, ← hempty]
      rw [scanFileStep_retry hlt hempty hne, scanFileStep_retry hlt' (hov ▸ hempty) (hov ▸ hne), hov]
      have hoptions : s.options = .notEmptyAtStartAnchored := by simp [ScanState.options, hempty]
      have hoptions' : t.options = .notEmptyAtStartAnchored := by simp [ScanState.options, hov, hempty]
      rcases Regex.pcre2Match_retry (r := r) s.ovector.stop with ⟨e, hrc, he⟩ | ⟨hrc, -⟩
      · rw [searchFrom_found (by rw [matchFrom_engine hfs.mUseLiteral, hoptions, hrc]),
          searchFrom_found (by rw [matchFrom_engine hfs'.mUseLiteral, hoptions', hrc])]
        obtain ⟨hse, hel, -⟩ := Regex.nonEmptyAt_bounds he
        exact SameSearch.package h.same (Nat.le_refl _) (Nat.le_refl _) (Nat.le_of_lt hse) hel
      · rw [searchFrom_noMatch (by rw [matchFrom_engine hfs.mUseLiteral, hoptions, hrc]),
          searchFrom_noMatch (by rw [matchFrom_engine hfs'.mUseLiteral, hoptions', hrc]),
          if_neg (by simp [hoptions]), if_neg (by simp [hoptions'])]
        exact h.retryFailed hfs.mUseLiteral hfs'.mUseLiteral (Nat.lt_of_le_of_ne h.stop_le hne)
    · rcases hfs.scanFileStep hlt hempty h.stop_le with ⟨so, a, e, hso, hnext, hstep⟩ | ⟨hno, hstep⟩ <;>
        rcases hfs'.scanFileStep hlt' (hov ▸ hempty) (hov ▸ h.stop_le) with
          ⟨so', a', e', hso', hnext', hstep'⟩ | ⟨hno', hstep'⟩
      · rw [hov] at hnext'
        obtain ⟨rfl, rfl⟩ := hnext.unique hnext'
        rw [hstep, hstep']
        obtain ⟨hae, he, -⟩ := Regex.matchAt_bounds hnext.matchAt
        exact SameSearch.package h.same hso hso' hae he
      · exact absurd (hno' a (hov ▸ hnext.le)) (by simp [hnext.matchAt])
      · exact absurd (hno a' (hov ▸ hnext'.le)) (by simp [hnext'.matchAt])
      · rw [hstep, hstep', hml]
        rfl
  · rw [scanFileStep_finished (Or.inl hlt), scanFileStep_finished (Or.inl (mt hguard.mpr hlt)), hml]
    rfl

theorem scanFile_passesNoMatch_done (hfs : PassesNoMatch fs r) :
    ∃ n res, fs.scanFile r.pcre2Match file n = .done res := by
  have hliteral : fs.mUseLiteral = true → fs.mLiteralSearchString.bytes ≠ [] := by
    simp [hfs.mUseLiteral]
  obtain ⟨n, res, hdone, -⟩ := scanFile_done (I := fun _ => True) (Q := fun _ => True)
    r.pcre2Match_inBounds r.pcre2Match_notEmptyAtStart hliteral
    (fun s _ _ => by cases fs.scanFileStep _ file s <;> trivial) trivial
  exact ⟨n, res, hdone⟩

/-- Two scanners whose shortcuts pass no match return the same result. -/
theorem scanFile_passesNoMatch (hfs : PassesNoMatch fs r) (hfs' : PassesNoMatch fs' r) {n : Nat}
    {res : ScanResult} (hdone : fs.scanFile r.pcre2Match file n = .done res) :
    fs'.scanFile r.pcre2Match file n = .done res := by
  have hinit : SameSearch file {} {} := ⟨rfl, Nat.zero_le _, Or.inl Iff.rfl⟩
  have hrel := run_related (SameSearch.step hfs hfs') n hinit
  change (fs.scanFile r.pcre2Match file n).Related _ _ (fs'.scanFile r.pcre2Match file n) at hrel
  rw [hdone] at hrel
  cases hdone' : fs'.scanFile r.pcre2Match file n with
  | next t =>
    rw [hdone'] at hrel
    exact hrel.elim
  | done res' =>
    rw [hdone'] at hrel
    rw [show res = res' from hrel]

end Ucg
