import Ucg.RegexScan

/-! Which lines with a match the scan around a regex engine reports, and the one way in
which it misses the first match of a line. -/

namespace Ucg

open Segments Search Iteration FileScannerPCRE2

variable {file : Bytes}

/-- The leftmost match that starts on a line, as the engine finds it. -/
structure Regex.LeftmostOn (r : Regex file) (line q e : Nat) : Prop where
  onLine : lineOf newline file q = line
  isMatch : r.matchAt q = some e
  leftmost : ∀ p < q, lineOf newline file p = line → r.matchAt p = none

/-- Every line on which a match starts before the end of the file is in the list exactly
once, with its leftmost match. -/
def Regex.ReportsEveryLine (r : Regex file) (ml : List Match) : Prop :=
  ∀ line, (∃ p < file.length, lineOf newline file p = line ∧ r.matchAt p ≠ none) →
    ∃ q e m, r.LeftmostOn line q e ∧ m.IsAt file q e ∧
      ml.filter (fun m => m.mLineNumber = line) = [m]

/-- A byte that the recovery from an empty match takes for the rest of a character. -/
def ContinuationAt (file : Bytes) (i : Nat) : Prop := ∃ c, file[i]? = some c ∧ c &&& 0xC0 = 0x80

/-- An empty match before a newline and a match among the bytes `0x80` to `0xBF` that begin
the next line. -/
def Regex.HidesMatch (r : Regex file) : Prop :=
  ∃ p q, file[p]? = some newline ∧ r.matchAt p ≠ none ∧ p < q ∧ q < file.length ∧
    (∀ i, p < i → i ≤ q → ContinuationAt file i) ∧ r.matchAt q ≠ none

namespace Regex

variable {r : Regex file}

theorem LeftmostOn.unique {line q e q' e' : Nat} (h : r.LeftmostOn line q e)
    (h' : r.LeftmostOn line q' e') : q = q' ∧ e = e' := by
  have hq : q = q' := by
    rcases Nat.lt_trichotomy q q' with hlt | heq | hgt
    · have := h'.leftmost q hlt h.onLine
      rw [h.isMatch] at this
      simp at this
    · exact heq
    · have := h.leftmost q' hgt h'.onLine
      rw [h'.isMatch] at this
      simp at this
  subst hq
  exact ⟨rfl, Option.some.inj (h.isMatch.symm.trans h'.isMatch)⟩

theorem exists_leftmostOn {p : Nat} (hp : p < file.length) (h : r.matchAt p ≠ none) :
    ∃ q e, r.LeftmostOn (lineOf newline file p) q e ∧ q ≤ p := by
  have hfirst := isFirst_first (fun i => decide (lineOf newline file i = lineOf newline file p) &&
    (r.matchAt i).isSome) file.length
  generalize first _ file.length = q at hfirst
  have hq : q ≤ p := by
    by_contra hlt
    exact hfirst.before p (by omega) (by simpa using Option.ne_none_iff_isSome.mp h)
  have hhit := hfirst.hit (by omega)
  simp only [Bool.and_eq_true, decide_eq_true_eq] at hhit
  obtain ⟨e, he⟩ := Option.isSome_iff_exists.mp hhit.2
  refine ⟨q, e, ⟨hhit.1, he, fun i hi hline => ?_⟩, hq⟩
  have := hfirst.before i hi
  simpa [hline] using this

theorem filter_line_eq {ml : List Match} {m : Match} (hm : m ∈ ml)
    (h : ml.Pairwise fun m m' => m.mLineNumber < m'.mLineNumber) :
    ml.filter (fun m' => m'.mLineNumber = m.mLineNumber) = [m] := by
  induction ml with
  | nil => simp at hm
  | cons x xs ih =>
    obtain ⟨hx, hxs⟩ := List.pairwise_cons.mp h
    rcases List.mem_cons.mp hm with rfl | hm
    · rw [List.filter_cons_of_pos (by simp), List.filter_eq_nil_iff.mpr]
      intro m' hm'
      have := hx m' hm'
      simp only [decide_eq_true_eq]
      omega
    · have := hx m hm
      rw [List.filter_cons_of_neg (by simp only [decide_eq_true_eq]; omega), ih hm hxs]

end Regex

theorem newline_not_continuation {i : Nat} (h : ContinuationAt file i) :
    file[i]? ≠ some newline := by
  obtain ⟨c, hc, hbits⟩ := h
  rw [hc]
  intro heq
  obtain rfl := Option.some.inj heq
  exact absurd hbits (by decide)

structure Covered (r : Regex file) (s : ScanState) : Prop where
  offset_le : s.startOffset ≤ s.ovector.stop
  isMatch : ∀ a, s.ovector.start = some a → r.matchAt a ≠ none
  reported : ∀ q e, r.LeftmostOn (lineOf newline file q) q e →
    (q < s.ovector.stop ∨ s.ovector.start = some q) → ∃ m ∈ s.ml, m.IsAt file q e

theorem covered_init (r : Regex file) : Covered r {} :=
  ⟨Nat.le_refl 0, fun a h => by simp at h, fun q e _ h => by simp at h⟩

def Complete (r : Regex file) (ml : List Match) : Prop :=
  ml.Pairwise (fun m m' => m.mLineNumber < m'.mLineNumber) ∧
    ∀ q e, q < file.length → r.LeftmostOn (lineOf newline file q) q e → ∃ m ∈ ml, m.IsAt file q e

variable {fs : FileScannerPCRE2} {r : Regex file} {s : ScanState}

theorem not_leftmostOn_of_sepFree {a q e : Nat} (ha : r.matchAt a ≠ none) (haq : a < q)
    (hfree : SepFree newline file a q) : ¬ r.LeftmostOn (lineOf newline file q) q e := by
  intro h
  exact ha (h.leftmost a haq ((lineOf_eq_iff (Nat.le_of_lt haq)).mpr hfree))

theorem covered_of_found {t : ScanState} {a e : Nat} (hov : t.ovector = ⟨some a, e⟩)
    (hso : t.startOffset ≤ e) (hmatch : r.matchAt a ≠ none) (hfree : SepFree newline file a e)
    (hupto : ∀ q e', q ≤ a → r.LeftmostOn (lineOf newline file q) q e' →
      ∃ m ∈ t.ml, m.IsAt file q e') : Covered r t := by
  refine ⟨by rw [hov]; exact hso, fun b hb => ?_, fun q e' hleft hq => ?_⟩
  · rw [hov] at hb
    exact Option.some.inj hb ▸ hmatch
  · rw [hov] at hq
    rcases Nat.lt_or_ge a q with hlt | hge
    · have hqe : q < e := by
        rcases hq with h | h
        · exact h
        · have := Option.some.inj h
          omega
      exact (not_leftmostOn_of_sepFree hmatch hlt
        (hfree.mono (Nat.le_refl a) (Nat.le_of_lt hqe)) hleft).elim
    · exact hupto q e' hge hleft

theorem Covered.upto (hcov : Covered r s) {p : Nat} (hov : s.ovector = ⟨some p, p⟩) {q e : Nat}
    (hq : q ≤ p) (hleft : r.LeftmostOn (lineOf newline file q) q e) :
    ∃ m ∈ s.ml, m.IsAt file q e := by
  refine hcov.reported q e hleft ?_
  rw [hov]
  rcases Nat.lt_or_eq_of_le hq with h | h
  · exact Or.inl h
  · exact Or.inr (congrArg some h.symm)

theorem Covered.before (hcov : Covered r s) {a : Nat}
    (hbefore : ∀ q, s.ovector.stop ≤ q → q < a → r.matchAt q = none) {q e : Nat} (hq : q < a)
    (hleft : r.LeftmostOn (lineOf newline file q) q e) : ∃ m ∈ s.ml, m.IsAt file q e := by
  by_cases hqs : q < s.ovector.stop
  · exact hcov.reported q e hleft (Or.inl hqs)
  · have := hbefore q (by omega) hq
    rw [hleft.isMatch] at this
    simp at this

theorem Covered.not_leftmostOn (hcov : Covered r s) (hlast : LastLine file s) {a e : Nat}
    (hne : s.ovector.start ≠ some s.ovector.stop) (hle : s.ovector.stop ≤ a)
    (hline : lineOf newline file a = s.prevLineno) :
    ¬ r.LeftmostOn (lineOf newline file a) a e := by
  intro hleft
  cases hstart : s.ovector.start with
  | none =>
    have := hlast.fresh hstart
    have := lineOf_pos newline file a
    omega
  | some b =>
    obtain ⟨hb, hbs⟩ := hlast.last b hstart
    have hba : b < a := by
      rcases Nat.lt_or_eq_of_le (Nat.le_trans hbs hle) with h | h
      · exact h
      · have : b = s.ovector.stop := by omega
        exact (hne (this ▸ hstart)).elim
    exact hcov.isMatch b hstart (hleft.leftmost b hba (by omega))

theorem covered_retryFailed (huse : fs.mUseLiteral = false) (hhide : ¬ r.HidesMatch)
    (hcov : Covered r s) {p : Nat} (hp : p < file.length) (hov : s.ovector = ⟨some p, p⟩) :
    Covered r (fs.retryFailed file s p) := by
  obtain ⟨hnext, hmax, hskip, -⟩ := skipContinuationBytes_spec file (p + 1)
  have hstart : s.ovector.start = some p := by rw [hov]
  have hmatch := hcov.isMatch p hstart
  have hov' : (fs.retryFailed file s p).ovector =
      ⟨some p, skipContinuationBytes (file.drop (p + 1)) (p + 1)⟩ := by
    simp [retryFailed, huse, hstart]
  refine ⟨?_, ?_, ?_⟩
  · exact Nat.le_trans (Nat.le_succ p) hnext
  · intro a ha
    rw [hov'] at ha
    exact Option.some.inj ha ▸ hmatch
  · intro q e hleft hq
    rw [hov'] at hq
    rcases Nat.lt_or_ge p q with hpq | hqp
    · have hlt : q < skipContinuationBytes (file.drop (p + 1)) (p + 1) := by
        rcases hq with h | h
        · exact h
        · have := Option.some.inj h
          omega
      by_cases hnl : file[p]? = some newline
      · -- The skipped bytes begin the next line, which `hhide` keeps free of matches.
        refine (hhide ⟨p, q, hnl, hmatch, hpq, by omega, ?_, by simp [hleft.isMatch]⟩).elim
        exact fun i hi hiq => hskip i (by omega) (by omega)
      · -- The skipped bytes lie on the line of the empty match, which is reported.
        refine (not_leftmostOn_of_sepFree hmatch hpq (fun i hi hiq => ?_) hleft).elim
        rcases Nat.lt_or_eq_of_le hi with h | h
        · exact newline_not_continuation (hskip i (by omega) (by omega))
        · exact h ▸ hnl
    · exact hcov.upto hov hqp hleft

theorem Covered.step (huse : fs.mUseLiteral = false) (hplain : ¬ fs.Skips)
    (hhide : ¬ r.HidesMatch) (hs : Sound fs r.pcre2Match file s) (hlast : LastLine file s)
    (hcov : Covered r s) :
    (fs.scanFileStep r.pcre2Match file s).Holds (Covered r) (fun res => Complete r res.ml) := by
  have hdone : (∀ q e, q < file.length → r.LeftmostOn (lineOf newline file q) q e →
      q < s.ovector.stop) → Complete r s.ml := fun h =>
    ⟨hs.lines.increasing, fun q e hq hleft => hcov.reported q e hleft (Or.inl (h q e hq hleft))⟩
  refine scanFileStep_regex huse hplain hs hlast ?_ ?_ ?_ ?_ ?_ ?_ ?_
  · intro hguard
    exact hdone fun q e hq _ => by have := hcov.offset_le; omega
  · intro hov
    exact hdone fun q e hq _ => by rw [hov]; exact hq
  · intro hnone
    refine hdone fun q e hq hleft => ?_
    by_contra hge
    have := hnone q (by omega) (Nat.le_of_lt hq)
    rw [hleft.isMatch] at this
    simp at this
  · intro p hp hov _
    exact covered_retryFailed huse hhide hcov hp hov
  · intro p e hp hov he
    obtain ⟨hlt, -, hfree⟩ := Regex.nonEmptyAt_bounds he
    exact covered_of_found rfl (Nat.le_of_lt hlt) (hcov.isMatch p (by rw [hov])) hfree
      fun q e' hq hleft => hcov.upto hov hq hleft
  · intro a e hne hle he hbefore hline
    obtain ⟨hae, -, hfree⟩ := Regex.matchAt_bounds he
    refine covered_of_found rfl (Nat.le_trans hle hae) (by rw [he]; simp) hfree ?_
    intro q e' hq hleft
    rcases Nat.lt_or_eq_of_le hq with hlt | rfl
    · exact hcov.before hbefore hlt hleft
    · exact (hcov.not_leftmostOn hlast hne hle hline hleft).elim
  · intro a e m hne hle he hbefore _ hat
    obtain ⟨hae, -, hfree⟩ := Regex.matchAt_bounds he
    refine covered_of_found rfl (Nat.le_trans hle hae) (by rw [he]; simp) hfree ?_
    intro q e' hq hleft
    rcases Nat.lt_or_eq_of_le hq with hlt | rfl
    · obtain ⟨m', hm', hat'⟩ := hcov.before hbefore hlt hleft
      exact ⟨m', List.mem_append_left _ hm', hat'⟩
    · obtain rfl := Option.some.inj (he.symm.trans hleft.isMatch)
      exact ⟨m, by simp, hat⟩

theorem Complete.reportsEveryLine {ml : List Match} (h : Complete r ml) : r.ReportsEveryLine ml := by
  rintro line ⟨p, hp, rfl, hmatch⟩
  obtain ⟨q, e, hleft, hqp⟩ := Regex.exists_leftmostOn hp hmatch
  obtain ⟨m, hm, hat⟩ := h.2 q e (by omega) (hleft.onLine ▸ hleft)
  refine ⟨q, e, m, hleft, hat, ?_⟩
  rw [← hleft.onLine, ← hat.lineNumber]
  exact Regex.filter_line_eq hm h.1

/-- Without a hidden match the scan ends and reports every line with a match. -/
theorem FileScannerPCRE2.scanFile_complete (huse : fs.mUseLiteral = false) (hplain : ¬ fs.Skips)
    (hhide : ¬ r.HidesMatch) :
    ∃ n res, fs.scanFile r.pcre2Match file n = .done res ∧ Complete r res.ml :=
  scanFile_regex_done huse hplain (fun _ hs hlast hcov => hcov.step huse hplain hhide hs hlast)
    (covered_init r)

/-- No match at `q` has been reported, and the cursor has not stopped between `p` and `q`. -/
structure JumpsOver (file : Bytes) (p q : Nat) (s : ScanState) : Prop where
  cursor : s.ovector.stop ≤ p ∨ q < s.ovector.stop
  reported : ∀ m ∈ s.ml, ∃ a e, a ≠ q ∧ a ≤ e ∧ m.IsAt file a e

theorem JumpsOver.step (huse : fs.mUseLiteral = false) (hplain : ¬ fs.Skips) {p q : Nat}
    (hnl : file[p]? = some newline) (hp : r.matchAt p ≠ none) (hpq : p < q)
    (hskipped : ∀ i, p < i → i ≤ q → ContinuationAt file i)
    (hs : Sound fs r.pcre2Match file s) (hlast : LastLine file s) (h : JumpsOver file p q s) :
    (fs.scanFileStep r.pcre2Match file s).Holds (JumpsOver file p q)
      (fun res => res.ml = s.ml) := by
  have hstop : ∀ {a e : Nat}, a ≤ p → SepFree newline file a e → e ≤ p := by
    intro a e ha hfree
    by_contra hlt
    exact hfree p ha (by omega) hnl
  have hmove : ∀ {a e : Nat}, s.ovector.stop ≤ a → r.matchAt a = some e →
      (∀ q, s.ovector.stop ≤ q → q < a → r.matchAt q = none) → (e ≤ p ∨ q < e) ∧ a ≠ q := by
    intro a e hle he hbefore
    obtain ⟨hae, -, hfree⟩ := Regex.matchAt_bounds he
    rcases h.cursor with hc | hc
    · have hap : a ≤ p := by
        by_contra hlt
        exact hp (hbefore p hc (by omega))
      exact ⟨Or.inl (hstop hap hfree), by omega⟩
    · exact ⟨Or.inr (by omega), by omega⟩
  refine scanFileStep_regex huse hplain hs hlast (fun _ => rfl) (fun _ => rfl) (fun _ => rfl)
    ?_ ?_ ?_ ?_
  · intro b hb hov _
    have hc : b ≤ p ∨ q < b := by have := h.cursor; rwa [hov] at this
    obtain ⟨hnext, -, hskip, hend⟩ := skipContinuationBytes_spec file (b + 1)
    refine ⟨?_, h.reported⟩
    simp only [retryFailed]
    rcases Nat.lt_trichotomy b p with hlt | rfl | hgt
    · left
      by_contra hgt
      exact newline_not_continuation (hskip p hlt (by omega)) hnl
    · right
      by_contra hle
      obtain ⟨c, hc, hbits⟩ := hskipped _ (show b < _ by omega) (Nat.le_of_not_lt hle)
      exact hend c hc hbits
    · right
      omega
  · intro b e _ hov he
    have hc : b ≤ p ∨ q < b := by have := h.cursor; rwa [hov] at this
    obtain ⟨hlt, -, hfree⟩ := Regex.nonEmptyAt_bounds he
    refine ⟨?_, h.reported⟩
    rcases hc with hc | hc
    · exact Or.inl (hstop hc hfree)
    · exact Or.inr (by dsimp only; omega)
  · intro a e _ hle he hbefore _
    exact ⟨(hmove hle he hbefore).1, h.reported⟩
  · intro a e m _ hle he hbefore _ hat
    obtain ⟨hc, hne⟩ := hmove hle he hbefore
    refine ⟨hc, fun m' hm' => ?_⟩
    rcases List.mem_append.mp hm' with hm' | hm'
    · exact h.reported m' hm'
    · exact ⟨a, e, hne, (Regex.matchAt_bounds he).1, List.mem_singleton.mp hm' ▸ hat⟩

theorem jumpsOver_init (file : Bytes) (p q : Nat) : JumpsOver file p q {} :=
  ⟨Or.inl (Nat.zero_le p), by simp⟩

theorem not_reportsEveryLine (huse : fs.mUseLiteral = false) (hplain : ¬ fs.Skips)
    (hhide : r.HidesMatch) (n : Nat) :
    ¬ r.ReportsEveryLine (Ucg.reported (fs.scanFile r.pcre2Match file n)) := by
  obtain ⟨p, q, hnl, hp, hpq, hq, hskipped, hmatch⟩ := hhide
  obtain ⟨q₀, e₀, hleft, hle⟩ := Regex.exists_leftmostOn hq hmatch
  have hpq₀ : p < q₀ := by
    by_contra hge
    have h₁ := lineOf_mono newline file (Nat.le_of_not_lt hge)
    have h₂ := lineOf_lt_of_sep (Nat.le_refl p) hpq hnl
    have := hleft.onLine
    omega
  intro hreport
  have hjump := scanFile_regex_reported huse hplain
    (P := fun ml => ∀ m ∈ ml, ∃ a e, a ≠ q₀ ∧ a ≤ e ∧ m.IsAt file a e)
    (fun _ hs hlast h => JumpsOver.step huse hplain hnl hp hpq₀
      (fun i hi hiq => hskipped i hi (by omega)) hs hlast h)
    (fun s h => h.reported) (jumpsOver_init file p q₀) n
  obtain ⟨q₁, e₁, m, hleft₁, hat, hfilter⟩ := hreport _ ⟨q, hq, rfl, hmatch⟩
  have hm : m ∈ Ucg.reported (fs.scanFile r.pcre2Match file n) := by
    have : m ∈ [m] := List.mem_singleton_self m
    rw [← hfilter] at this
    exact List.mem_of_mem_filter this
  obtain ⟨a, e, hne, hae, hat'⟩ := hjump m hm
  have heq := hat'.start_unique hae (Regex.matchAt_bounds hleft₁.isMatch).1 hat
  exact hne (heq.trans (hleft₁.unique hleft).1)

/-- The scan reports every line with a match exactly once and with its first match, unless
an empty match before a newline hides the first match of the next line. -/
theorem scanFile_reportsEveryLine_iff (huse : fs.mUseLiteral = false) (hplain : ¬ fs.Skips) :
    (∃ n res, fs.scanFile r.pcre2Match file n = .done res ∧ r.ReportsEveryLine res.ml) ↔
      ¬ r.HidesMatch := by
  constructor
  · rintro ⟨n, res, hdone, hreport⟩ hhide
    have := not_reportsEveryLine huse hplain hhide n
    rw [hdone] at this
    exact this hreport
  · intro hhide
    obtain ⟨n, res, hdone, hcomplete⟩ := fs.scanFile_complete huse hplain hhide
    exact ⟨n, res, hdone, hcomplete.reportsEveryLine⟩

theorem scanFile_reportsEveryLine_iff_two_lines :
    let file : Bytes := [97, 98, 10, 98]
    let r : Regex file := .within fun p => if file[p]? = some 98 then [p + 1] else []
    let fs := analyzed true true false false ⟨none, 0, 0⟩ ⟨[98], by decide⟩
    ∃ n res, fs.scanFile r.pcre2Match file n = .done res ∧ r.ReportsEveryLine res.ml := by
  intro file r fs
  refine (scanFile_reportsEveryLine_iff (by decide) (by decide)).mpr ?_
  rintro ⟨p, q, hp, hmatch, -⟩
  have hnil : r.solutions p = [] := by simp [r, Regex.within, hp, newline]
  exact hmatch (by rw [Regex.matchAt, Regex.accepted, hnil]; rfl)

/-- The regex `$|\x80` on `a\n\x80b`: the match at the start of the second line is not
reported. -/
theorem scanFile_misses_first_match :
    let file : Bytes := [97, 10, 128, 98]
    let r : Regex file := .within fun p =>
      if p = 1 then [1] else if p = 2 then [3] else if p = 4 then [4] else []
    let fs := analyzed true false false false ⟨none, 0, 0⟩ ⟨[36, 124, 92, 120, 56, 48], by decide⟩
    ¬ ∃ n res, fs.scanFile r.pcre2Match file n = .done res ∧ r.ReportsEveryLine res.ml := by
  rintro file r fs ⟨n, res, hdone, hreport⟩
  have hhide : r.HidesMatch := by
    refine ⟨1, 2, by decide, by decide, by decide, by decide, fun i hi hi' => ?_, by decide⟩
    obtain rfl : i = 2 := by omega
    exact ⟨128, by decide, by decide⟩
  have huse : fs.mUseLiteral = false := by decide
  have hmiss := not_reportsEveryLine huse (by decide) hhide n
  rw [hdone] at hmiss
  exact hmiss hreport

end Ucg
