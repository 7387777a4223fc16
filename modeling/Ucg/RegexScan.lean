import Ucg.Regex
import Ucg.Termination

/-! The scan loop around a regex engine without shortcuts: what each evaluation can do,
in terms of the matches of the regex. -/

namespace Ucg

open Segments Iteration

variable {file : Bytes}

theorem Regex.pcre2Match_notEmptyAtStart (r : Regex file) : r.pcre2Match.NotEmptyAtStart := by
  intro so h
  rcases Regex.pcre2Match_retry (r := r) so with ⟨e, hrc, he⟩ | ⟨hrc, -⟩
  · rw [hrc] at h
    have := (MatchRc.found.inj h).2
    have := (Regex.nonEmptyAt_bounds he).1
    omega
  · rw [hrc] at h
    simp at h

structure LastLine (file : Bytes) (s : ScanState) : Prop where
  fresh : s.ovector.start = none → s.prevLineno = 0
  last : ∀ a, s.ovector.start = some a →
    s.prevLineno = lineOf newline file a ∧ a ≤ s.ovector.stop

theorem lastLine_init : LastLine file {} := ⟨fun _ => rfl, fun a h => by simp at h⟩

namespace FileScannerPCRE2

variable {fs : FileScannerPCRE2} {r : Regex file} {s : ScanState}

theorem package_regex (hs : Sound fs r.pcre2Match file s) {so a e : Nat}
    {I : ScanState → Prop} {Q : ScanResult → Prop} (hso : s.ovector.stop ≤ a)
    (hae : a ≤ e ∧ e ≤ file.length ∧ SepFree newline file a e)
    (hsame : lineOf newline file a = s.prevLineno →
      I { s with ovector := ⟨some a, e⟩, lineNo := lineOf newline file a,
                 prevLinenoSearchEnd := a, startOffset := so })
    (hnew : ∀ m, lineOf newline file a ≠ s.prevLineno → m.IsAt file a e →
      I { ovector := ⟨some a, e⟩, lineNo := lineOf newline file a,
          prevLineno := lineOf newline file a, prevLinenoSearchEnd := a,
          startOffset := so, ml := s.ml ++ [m] }) :
    (s.package file so a e).Holds I Q := by
  obtain ⟨hle, hlen, hfree⟩ := hae
  have hcount := hs.lines.count_eq (Nat.le_trans hs.searchEnd_le hso) (Nat.le_trans hle hlen)
  refine ScanState.package_holds ?_ ?_ ?_
  · rintro l hl heq
    rw [hcount] at hl
    exact hl ▸ hsame (hl ▸ heq)
  · rintro l m hl hne hm
    rw [hcount] at hl
    subst hl
    exact hnew m hne (Match.isAt_of_new? (Nat.le_trans hle hlen) hm)
  · intro l _ _ hnone
    exact ((Match.new?_eq_none_iff (Nat.le_trans hle hlen) hlen).mp hnone hfree).elim

theorem scanFileStep_regex (huse : fs.mUseLiteral = false) (hplain : ¬ fs.Skips)
    (hs : Sound fs r.pcre2Match file s) (hlast : LastLine file s)
    {I : ScanState → Prop} {Q : ScanResult → Prop}
    (hguard : file.length ≤ s.startOffset → Q ⟨s.ml, .finished⟩)
    (hend : s.ovector = ⟨some file.length, file.length⟩ → Q ⟨s.ml, .finished⟩)
    (hnone : (∀ q, s.ovector.stop ≤ q → q ≤ file.length → r.matchAt q = none) →
      Q ⟨s.ml, .finished⟩)
    (hretry : ∀ p, p < file.length → s.ovector = ⟨some p, p⟩ → r.nonEmptyAt p = none →
      I (fs.retryFailed file s p))
    (hagain : ∀ p e, p < file.length → s.ovector = ⟨some p, p⟩ → r.nonEmptyAt p = some e →
      I { s with ovector := ⟨some p, e⟩, lineNo := lineOf newline file p,
                 prevLinenoSearchEnd := p, startOffset := p })
    (hsame : ∀ a e, s.ovector.start ≠ some s.ovector.stop → s.ovector.stop ≤ a →
      r.matchAt a = some e → (∀ q, s.ovector.stop ≤ q → q < a → r.matchAt q = none) →
      lineOf newline file a = s.prevLineno →
      I { s with ovector := ⟨some a, e⟩, lineNo := lineOf newline file a,
                 prevLinenoSearchEnd := a, startOffset := s.ovector.stop })
    (hnew : ∀ a e m, s.ovector.start ≠ some s.ovector.stop → s.ovector.stop ≤ a →
      r.matchAt a = some e → (∀ q, s.ovector.stop ≤ q → q < a → r.matchAt q = none) →
      lineOf newline file a ≠ s.prevLineno → m.IsAt file a e →
      I { ovector := ⟨some a, e⟩, lineNo := lineOf newline file a,
          prevLineno := lineOf newline file a, prevLinenoSearchEnd := a,
          startOffset := s.ovector.stop, ml := s.ml ++ [m] }) :
    (fs.scanFileStep r.pcre2Match file s).Holds I Q := by
  have hmatch : ∀ options so, fs.matchFrom r.pcre2Match file options so = r.pcre2Match so options := by
    intro options so
    rw [matchFrom, if_neg (by simp [huse])]
  refine scanFileStep_holds hguard (fun _ => hend) (fun _ h => ?_) (fun so _ hne hskip => ?_)
  · rw [skipAhead_plain hplain] at h
    simp at h
  rw [skipAhead_plain hplain] at hskip
  obtain rfl := Option.some.inj hskip
  by_cases hempty : s.ovector.start = some s.ovector.stop
  · have hlt : s.ovector.stop < file.length := by
      have := hs.stop_le
      have := hne hempty
      omega
    have hov : s.ovector = ⟨some s.ovector.stop, s.ovector.stop⟩ := by
      rw [← hempty]
    have hopt : s.options = .notEmptyAtStartAnchored := by simp [ScanState.options, hempty]
    rcases Regex.pcre2Match_retry (r := r) s.ovector.stop with ⟨e, hrc, he⟩ | ⟨hrc, he⟩
    · rw [searchFrom_found (by rw [hmatch, hopt, hrc])]
      obtain ⟨h₁, h₂, h₃⟩ := Regex.nonEmptyAt_bounds he
      have hline := (hlast.last _ hempty).1
      exact package_regex hs (Nat.le_refl _) ⟨Nat.le_of_lt h₁, h₂, h₃⟩
        (fun _ => hagain _ _ hlt hov he) (fun m h => (h hline.symm).elim)
    · rw [searchFrom_noMatch (by rw [hmatch, hopt, hrc]), hopt, if_neg (by simp)]
      exact hretry _ hlt hov he
  · have hopt : s.options = .none := ScanState.options_none.mpr hempty
    rcases Regex.pcre2Match_none (r := r) s.ovector.stop with
      ⟨a, e, hrc, hle, he, hbefore⟩ | ⟨hrc, hno⟩
    · rw [searchFrom_found (by rw [hmatch, hopt, hrc])]
      exact package_regex hs hle (Regex.matchAt_bounds he)
        (hsame a e hempty hle he hbefore) (fun m => hnew a e m hempty hle he hbefore)
    · rw [searchFrom_noMatch (by rw [hmatch, hopt, hrc]), if_pos hopt]
      exact hnone hno

theorem LastLine.step (huse : fs.mUseLiteral = false) (hplain : ¬ fs.Skips)
    (hs : Sound fs r.pcre2Match file s) (hlast : LastLine file s) :
    (fs.scanFileStep r.pcre2Match file s).Holds (LastLine file) (fun _ => True) := by
  have hat : ∀ (t : ScanState) a e, t.ovector = ⟨some a, e⟩ → a ≤ e →
      t.prevLineno = lineOf newline file a → LastLine file t := by
    intro t a e ht hae hline
    refine ⟨fun h => by simp [ht] at h, fun b h => ?_⟩
    rw [ht] at h ⊢
    obtain rfl := Option.some.inj h
    exact ⟨hline, hae⟩
  refine scanFileStep_regex huse hplain hs hlast (fun _ => trivial) (fun _ => trivial)
    (fun _ => trivial) ?_ ?_ ?_ ?_
  · intro p _ hov _
    obtain ⟨hnext, -⟩ := skipContinuationBytes_spec file (p + 1)
    have hline := (hlast.last p (by rw [hov])).1
    refine hat _ p _ ?_ (Nat.le_trans (Nat.le_succ p) hnext) hline
    simp [retryFailed, huse, hov]
  · intro p e _ hov he
    exact hat _ p e rfl (Nat.le_of_lt (Regex.nonEmptyAt_bounds he).1) (hlast.last p (by rw [hov])).1
  · intro a e _ _ he _ hline
    exact hat _ a e rfl (Regex.matchAt_bounds he).1 hline.symm
  · intro a e m _ _ he _ _ _
    exact hat _ a e rfl (Regex.matchAt_bounds he).1 rfl

theorem scanFile_regex_done (huse : fs.mUseLiteral = false) (hplain : ¬ fs.Skips)
    {I : ScanState → Prop} {Q : ScanResult → Prop}
    (hstep : ∀ s, Sound fs r.pcre2Match file s → LastLine file s → I s →
      (fs.scanFileStep r.pcre2Match file s).Holds I Q)
    (hinit : I {}) : ∃ n res, fs.scanFile r.pcre2Match file n = .done res ∧ Q res := by
  refine scanFile_done (I := fun s => LastLine file s ∧ I s) r.pcre2Match_inBounds
    r.pcre2Match_notEmptyAtStart (fun h => by simp [huse] at h) ?_ ⟨lastLine_init, hinit⟩
  rintro s hs ⟨hlast, hi⟩
  exact ((LastLine.step huse hplain hs hlast).and (hstep s hs hlast hi)).mono (fun _ h => h)
    (fun _ h => h.2)

theorem scanFile_regex_reported (huse : fs.mUseLiteral = false) (hplain : ¬ fs.Skips)
    {I : ScanState → Prop} {P : List Match → Prop}
    (hstep : ∀ s, Sound fs r.pcre2Match file s → LastLine file s → I s →
      (fs.scanFileStep r.pcre2Match file s).Holds I (fun res => res.ml = s.ml))
    (hreport : ∀ s, I s → P s.ml) (hinit : I {}) (n : Nat) :
    P (reported (fs.scanFile r.pcre2Match file n)) := by
  refine reported_of_invariant
    (I := fun s => Sound fs r.pcre2Match file s ∧ LastLine file s ∧ I s) ?_
    (fun s h => hreport s h.2.2) ⟨sound_init, lastLine_init, hinit⟩ n
  rintro s ⟨hs, hlast, hi⟩
  have h₁ := hs.step r.pcre2Match_inBounds
  have h₂ := LastLine.step huse hplain hs hlast
  exact (h₁.and (h₂.and (hstep s hs hlast hi))).mono (fun _ h => h) (fun _ h => h.1)

theorem scanFile_regex_matchAt (huse : fs.mUseLiteral = false) (n : Nat) :
    ∀ m ∈ reported (fs.scanFile r.pcre2Match file n), ∃ a e, m.IsAt file a e ∧ a ≤ e ∧
      e ≤ file.length ∧ r.matchAt a ≠ none := by
  refine reported_of_invariant (P := fun ml => ∀ m ∈ ml, ∃ a e, m.IsAt file a e ∧ a ≤ e ∧
      e ≤ file.length ∧ r.matchAt a ≠ none)
    (fun _ hs => hs.step r.pcre2Match_inBounds) (fun s hs m hm => ?_) sound_init n
  obtain ⟨a, b, ⟨so, options, -, hrc⟩, hab, hb, hat⟩ := hs.lines.isAt m hm
  rw [matchFrom, if_neg (by simp [huse])] at hrc
  refine ⟨a, b, hat, hab, hb, ?_⟩
  rcases (Regex.pcre2Match_found hrc).2 with h | h
  · simp [h]
  · exact Regex.matchAt_isSome_of_nonEmptyAt h

end FileScannerPCRE2

end Ucg
