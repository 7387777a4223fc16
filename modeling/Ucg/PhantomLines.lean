import Ucg.RegexScan

/-! Matches reported behind the last line of a file. -/

namespace Ucg

open Segments Iteration FileScannerPCRE2

variable {file : Bytes}

/-- The match starts on a line that the file has. -/
def OnExistingLine (file : Bytes) (m : Match) : Prop :=
  (∃ s e, m.IsAt file s e ∧ s ≤ e ∧ e ≤ file.length ∧
    (s < file.length ∨ s = file.length ∧ file ≠ [] ∧ file.getLast? ≠ some newline)) ∧
  m.mLineNumber ≤ numLines newline file

/-- A regex with a first code unit or a bitmap of them does not match behind the last byte. -/
def CompiledRegex.BeginsWithCodeUnit (c : CompiledRegex) : Prop :=
  c.info.firstBitmap.isSome = true ∨ c.info.firstCodeType = 1 →
    ∀ file p, (c.regex file).matchAt p ≠ none → p < file.length

theorem onExistingLine_of_isAt {m : Match} {s e : Nat} (hat : m.IsAt file s e) (hse : s ≤ e)
    (he : e ≤ file.length)
    (h : s < file.length ∨ file ≠ [] ∧ file.getLast? ≠ some newline) : OnExistingLine file m := by
  have hs : s < file.length ∨ s = file.length ∧ file ≠ [] ∧ file.getLast? ≠ some newline := by
    rcases h with h | h
    · exact Or.inl h
    · rcases Nat.lt_or_eq_of_le (Nat.le_trans hse he) with hlt | heq
      · exact Or.inl hlt
      · exact Or.inr ⟨heq, h⟩
  refine ⟨⟨s, e, hat, hse, he, hs⟩, ?_⟩
  rw [hat.lineNumber]
  rcases hs with hs | ⟨rfl, hs⟩
  · exact lineOf_le_numLines hs
  · exact (lineOf_length_le_numLines_iff file).mpr hs

structure ReachesEnd (file : Bytes) (s : ScanState) : Prop where
  offset : s.startOffset < file.length ∨ s.ovector.start = some file.length
  seen : s.ovector.start = some file.length →
    ∃ m ∈ s.ml, m.mLineNumber = lineOf newline file file.length

section Plain

variable {fs : FileScannerPCRE2} {r : Regex file} {s : ScanState}

theorem ReachesEnd.step (huse : fs.mUseLiteral = false) (hplain : ¬ fs.Skips)
    (hlastByte : file.getLast? = some newline) (hend : r.matchAt file.length ≠ none)
    (hs : Sound fs r.pcre2Match file s) (hlast : LastLine file s) (h : ReachesEnd file s) :
    (fs.scanFileStep r.pcre2Match file s).Holds (ReachesEnd file)
      (fun res => ∃ m ∈ res.ml, m.mLineNumber = lineOf newline file file.length) := by
  have hnl : file[file.length - 1]? = some newline := by rw [← hlastByte, List.getLast?_eq_getElem?]
  have hpos : 0 < file.length := by
    have := (List.getElem?_eq_some_iff.mp hnl).1
    omega
  have hreach : ∀ {a : Nat}, (∀ q, s.ovector.stop ≤ q → q < a → r.matchAt q = none) →
      s.ovector.stop ≤ a → (s.ovector.stop < file.length ∨ some a = some file.length) ∧
        a ≤ file.length := by
    intro a hbefore hle
    have hstop := hs.stop_le
    have ha : a ≤ file.length := by
      by_contra hgt
      exact hend (hbefore _ hstop (by omega))
    exact ⟨by rw [Option.some.injEq]; omega, ha⟩
  refine scanFileStep_regex huse hplain hs hlast ?_ ?_ ?_ ?_ ?_ ?_ ?_
  · intro hguard
    exact h.seen (h.offset.resolve_left (by omega))
  · intro hov
    exact h.seen (by rw [hov])
  · intro hnone
    exact (hend (hnone _ hs.stop_le (Nat.le_refl _))).elim
  · intro p hp hov _
    refine ⟨Or.inl hp, fun hstart => h.seen ?_⟩
    simpa [retryFailed, huse] using hstart
  · intro p e hp hov _
    refine ⟨Or.inl hp, fun hstart => ?_⟩
    have := Option.some.inj hstart
    omega
  · intro a e _ hle he hbefore hline
    obtain ⟨hoff, ha⟩ := hreach hbefore hle
    refine ⟨hoff, fun hstart => ?_⟩
    obtain rfl := Option.some.inj hstart
    cases hprev : s.ovector.start with
    | none =>
      have := hlast.fresh hprev
      have := lineOf_pos newline file file.length
      omega
    | some b =>
      obtain ⟨hb, hbs⟩ := hlast.last b hprev
      rcases Nat.lt_or_eq_of_le (Nat.le_trans hbs hle) with hlt | heq
      · have := lineOf_lt_of_sep (show b ≤ file.length - 1 by omega)
          (show file.length - 1 < file.length by omega) hnl
        omega
      · exact h.seen (hprev.trans (congrArg some heq))
  · intro a e m _ hle he hbefore _ hat
    obtain ⟨hoff, ha⟩ := hreach hbefore hle
    refine ⟨hoff, fun hstart => ⟨m, by simp, ?_⟩⟩
    obtain rfl := Option.some.inj hstart
    exact hat.lineNumber

theorem exists_phantom (huse : fs.mUseLiteral = false) (hplain : ¬ fs.Skips)
    (hlastByte : file.getLast? = some newline) (hend : r.matchAt file.length ≠ none) :
    ∃ n, ∃ m ∈ reported (fs.scanFile r.pcre2Match file n), ¬ OnExistingLine file m := by
  have hpos : 0 < file.length := by
    cases file with
    | nil => simp at hlastByte
    | cons c cs => simp
  obtain ⟨n, res, hdone, m, hm, hline⟩ := scanFile_regex_done huse hplain
    (fun _ hs hlast h => ReachesEnd.step huse hplain hlastByte hend hs hlast h)
    ⟨Or.inl hpos, fun h => by simp at h⟩
  refine ⟨n, m, by rw [hdone]; exact hm, fun hex => ?_⟩
  have hle := hex.2
  rw [hline] at hle
  exact ((lineOf_length_le_numLines_iff file).mp hle).2 hlastByte

end Plain

section Analyzed

variable {fs : FileScannerPCRE2} {pcre2Match : Pcre2Match}

theorem onExistingLine_of_found (hin : pcre2Match.InBounds file)
    (h : ∀ so options a b, so ≤ file.length → fs.matchFrom pcre2Match file options so = .found a b →
      a < file.length ∨ file ≠ [] ∧ file.getLast? ≠ some newline) (n : Nat) :
    ∀ m ∈ reported (fs.scanFile pcre2Match file n), OnExistingLine file m := by
  refine reported_of_invariant (P := fun ml => ∀ m ∈ ml, OnExistingLine file m)
    (fun _ hs => hs.step hin) (fun s hs m hm => ?_) sound_init n
  obtain ⟨a, b, ⟨so, options, hso, hrc⟩, hab, hb, hat⟩ := hs.lines.isAt m hm
  exact onExistingLine_of_isAt hat hab hb (h so options a b hso hrc)

theorem reported_nil (n : Nat) : reported (fs.scanFile pcre2Match [] n) = [] := by
  refine reported_of_invariant (I := fun s => s.ml = []) (P := fun ml => ml = []) (fun s _ => ?_)
    (fun _ h => h) rfl n
  exact scanFileStep_holds (fun _ => rfl) (fun _ _ => rfl) (fun _ _ => rfl)
    (fun so hlt _ _ => by simp at hlt)

theorem literal_onExistingLine (hin : pcre2Match.InBounds file) (huse : fs.mUseLiteral = true)
    (n : Nat) : ∀ m ∈ reported (fs.scanFile pcre2Match file n), OnExistingLine file m := by
  by_cases hfile : file = []
  · subst hfile
    simp [reported_nil]
  have hpos : 0 < file.length := List.length_pos_iff.mpr hfile
  by_cases hnil : fs.mLiteralSearchString.bytes = []
  · refine reported_of_invariant (P := fun ml => ∀ m ∈ ml, OnExistingLine file m)
      (fun s h => (Stuck.step huse hnil hfile h).mono (fun _ ht => ht) (fun _ hr => hr.elim))
      (fun s h m hm => ?_) stuck_init n
    exact onExistingLine_of_isAt (h.isAt m hm) (Nat.le_refl 0) (Nat.zero_le _) (Or.inl hpos)
  · refine onExistingLine_of_found hin (fun so options a b hso hrc => Or.inl ?_) n
    rw [matchFrom, if_pos huse] at hrc
    have hlen := List.length_pos_iff.mpr hnil
    rcases resolveLiteralMatch_spec fs.sysHasSse42 hso fs.mLiteralSearchString.nulFree with
      ⟨q, hq, -, hocc, -⟩ | ⟨hq, -⟩
    · rw [hq] at hrc
      have := (MatchRc.found.inj hrc).1
      have := hocc.1
      omega
    · rw [hq] at hrc
      simp at hrc

theorem regex_onExistingLine {r : Regex file} (huse : fs.mUseLiteral = false)
    (hend : r.matchAt file.length = none) (n : Nat) :
    ∀ m ∈ reported (fs.scanFile r.pcre2Match file n), OnExistingLine file m := by
  intro m hm
  obtain ⟨a, e, hat, hae, he, hne⟩ := scanFile_regex_matchAt huse n m hm
  refine onExistingLine_of_isAt hat hae he (Or.inl ?_)
  rcases Nat.lt_or_eq_of_le (Nat.le_trans hae he) with hlt | rfl
  · exact hlt
  · exact (hne hend).elim

/-- Every report is on an existing line exactly when the literal search replaces the engine,
the file does not end in a newline, or the regex does not match at the end of the file. -/
theorem reported_onExistingLine_iff {sse ic wr lit : Bool} {p : Pattern} {c : CompiledRegex}
    (hfirst : c.BeginsWithCodeUnit) :
    (∀ n, ∀ m ∈ reported ((analyzed sse ic wr lit c.info p).scanFile (c.regex file).pcre2Match file n),
      OnExistingLine file m) ↔
    ((ic = false ∧ wr = false ∧ (lit = true ∨ isPatternLiteral p.bytes = true)) ∨
      file.getLast? ≠ some newline ∨ (c.regex file).matchAt file.length = none) := by
  constructor
  · intro h
    by_contra hcond
    simp only [not_or, not_not] at hcond
    obtain ⟨hlit, hlastByte, hend⟩ := hcond
    have huse : (analyzed sse ic wr lit c.info p).mUseLiteral = false := by
      rwa [← Bool.not_eq_true, analyzed_mUseLiteral]
    have hplain : ¬ (analyzed sse ic wr lit c.info p).Skips := fun hskips =>
      (Nat.lt_irrefl _ (hfirst (analyzed_skips hskips) file _ hend)).elim
    obtain ⟨n, m, hm, hno⟩ := exists_phantom huse hplain hlastByte hend
    exact hno (h n m hm)
  · intro hcond n
    by_cases huse : (analyzed sse ic wr lit c.info p).mUseLiteral = true
    · exact literal_onExistingLine (c.regex file).pcre2Match_inBounds huse n
    · rcases hcond with hlit | hlastByte | hend
      · exact (huse (analyzed_mUseLiteral.mpr hlit)).elim
      · by_cases hfile : file = []
        · subst hfile
          simp [reported_nil]
        · exact onExistingLine_of_found (c.regex file).pcre2Match_inBounds
            (fun _ _ _ _ _ _ => Or.inr ⟨hfile, hlastByte⟩) n
      · exact regex_onExistingLine (by simpa using huse) hend n

end Analyzed

/-- The regex `$`, which matches before every newline and at the end of the file. -/
def endOfLine : CompiledRegex where
  info := ⟨none, 0, 0⟩
  regex file := {
    solutions := fun p => if p = file.length ∨ file[p]? = some newline then [p] else []
    inSubject := fun {p e} h => by
      split at h
      · rename_i hp
        obtain rfl := List.mem_singleton.mp h
        refine ⟨Nat.le_refl e, ?_⟩
        rcases hp with rfl | hp
        · exact Nat.le_refl _
        · exact Nat.le_of_lt (List.getElem?_eq_some_iff.mp hp).1
      · simp at h }

theorem reported_onExistingLine_iff_unterminated_line :
    endOfLine.BeginsWithCodeUnit ∧
      ∀ n, ∀ m ∈ reported ((analyzed true false false false endOfLine.info ⟨[36], by decide⟩).scanFile
        (endOfLine.regex [97]).pcre2Match [97] n), OnExistingLine [97] m := by
  have hfirst : endOfLine.BeginsWithCodeUnit := fun h => by simp [endOfLine] at h
  exact ⟨hfirst, (reported_onExistingLine_iff hfirst).mpr (Or.inr (Or.inl (by decide)))⟩

/-- The regex `$` on the one line `a\n` is reported on a second line. -/
theorem reported_phantom_line :
    ¬ ∀ n, ∀ m ∈ reported ((analyzed true false false false endOfLine.info ⟨[36], by decide⟩).scanFile
      (endOfLine.regex [97, 10]).pcre2Match [97, 10] n), OnExistingLine [97, 10] m := by
  intro h
  have hline := (h 6 ⟨2, [], [], []⟩ (by decide)).2
  exact absurd hline (by decide)

end Ucg
