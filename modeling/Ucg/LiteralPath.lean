import Ucg.RegexScan

/-! The literal search against the regex search that it replaces. -/

namespace Ucg

open Segments Search Iteration FileScannerPCRE2

variable {file literal : Bytes}

instance (file literal : Bytes) (q : Nat) : Decidable (OccursAt file literal q) :=
  inferInstanceAs (Decidable (_ ∧ _))

/-- The regex that matches the bytes of a literal and nothing else. -/
def literalRegex (literal file : Bytes) : Regex file where
  solutions q := if OccursAt file literal q then [q + literal.length] else []
  inSubject := fun {q e} h => by
    split at h
    · rename_i hocc
      obtain rfl := List.mem_singleton.mp h
      exact ⟨Nat.le_add_right q _, hocc.1⟩
    · simp at h

theorem OccursAt.getElem? {q j : Nat} {c : UInt8} (h : OccursAt file literal q)
    (hc : literal[j]? = some c) : file[q + j]? = some c := by
  have hj := (List.getElem?_eq_some_iff.mp hc).1
  have hlen := h.1
  have hmem := bytesAt_iff.mp h.2 j c hc
  have hin : q + j < file.length := by omega
  rw [fileMem, List.getD_eq_getElem?_getD, List.getElem?_eq_getElem hin] at hmem
  rw [List.getElem?_eq_getElem hin]
  exact congrArg some hmem

theorem OccursAt.sepFree_iff {q : Nat} (h : OccursAt file literal q) :
    SepFree newline file q (q + literal.length) ↔ newline ∉ literal := by
  constructor
  · intro hfree hmem
    obtain ⟨j, hj⟩ := List.mem_iff_getElem?.mp hmem
    have := (List.getElem?_eq_some_iff.mp hj).1
    exact hfree (q + j) (by omega) (by omega) (h.getElem? hj)
  · intro hmem i hi hi' hat
    have hj : literal[i - q]? = some literal[i - q] := List.getElem?_eq_getElem (by omega)
    have := h.getElem? hj
    rw [show q + (i - q) = i by omega, hat] at this
    exact hmem (Option.some.inj this ▸ List.getElem_mem _)

structure FirstOccurrence (file literal : Bytes) (so a : Nat) : Prop where
  le : so ≤ a
  occurs : OccursAt file literal a
  before : ∀ q, so ≤ q → q < a → ¬ OccursAt file literal q

theorem FirstOccurrence.unique {so a b : Nat} (ha : FirstOccurrence file literal so a)
    (hb : FirstOccurrence file literal so b) : a = b := by
  rcases Nat.lt_trichotomy a b with h | h | h
  · exact (hb.before a ha.le h ha.occurs).elim
  · exact h
  · exact (ha.before b hb.le h hb.occurs).elim

theorem literalRegex_matchAt {q : Nat}
    (hok : OccursAt file literal q → newline ∉ literal) :
    (literalRegex literal file).matchAt q =
      if OccursAt file literal q then some (q + literal.length) else none := by
  rw [Regex.matchAt, Regex.accepted, literalRegex]
  dsimp only
  split
  · rename_i hocc
    rw [List.filter_cons_of_pos]
    · rfl
    · rw [beq_iff_eq, Regex.calloutHandler_eq_zero]
      exact hocc.sepFree_iff.mpr (hok hocc)
  · rfl

/-- A scanner whose every plain search is for the next occurrence of the literal. -/
def FindsLiteral (fs : FileScannerPCRE2) (pcre2Match : Pcre2Match) (file literal : Bytes) : Prop :=
  ∀ s : ScanState, s.startOffset < file.length → s.ovector.start ≠ some s.ovector.stop →
    s.ovector.stop ≤ file.length →
    (∃ so a, so ≤ a ∧ FirstOccurrence file literal s.ovector.stop a ∧
      fs.scanFileStep pcre2Match file s = s.package file so a (a + literal.length)) ∨
    ((∀ q, s.ovector.stop ≤ q → ¬ OccursAt file literal q) ∧
      fs.scanFileStep pcre2Match file s = .done ⟨s.ml, .finished⟩)

section Paths

variable {fs : FileScannerPCRE2} {pcre2Match : Pcre2Match}

theorem scanFileStep_plain {s : ScanState} (hlt : s.startOffset < file.length)
    (hne : s.ovector.start ≠ some s.ovector.stop) :
    fs.scanFileStep pcre2Match file s =
      match fs.skipAhead file .none s.ovector.stop with
      | none => .done ⟨s.ml, .finished⟩
      | some so => fs.searchFrom pcre2Match file s so := by
  have hend : ¬ (s.ovector.start = some s.ovector.stop ∧ s.ovector.start = some file.length) :=
    fun h => hne h.1
  cases hskip : fs.skipAhead file .none s.ovector.stop <;>
    simp only [scanFileStep, if_pos hlt, if_neg hend, ScanState.options_none.mpr hne, hskip]

theorem literal_findsLiteral (pcre2Match : Pcre2Match) (file : Bytes) (huse : fs.mUseLiteral = true)
    (hlit : fs.mLiteralSearchString.bytes = literal) : FindsLiteral fs pcre2Match file literal := by
  intro s hlt hne hstop
  rw [scanFileStep_plain hlt hne, skipAhead, if_neg (by simp [huse])]
  dsimp only
  have hmatch : fs.matchFrom pcre2Match file s.options s.ovector.stop =
      resolveLiteralMatch fs.sysHasSse42 (fileMem file) file.length s.ovector.stop literal := by
    rw [matchFrom, if_pos huse, hlit]
  have hnul : (0 : UInt8) ∉ literal := hlit ▸ fs.mLiteralSearchString.nulFree
  rcases resolveLiteralMatch_spec fs.sysHasSse42 hstop hnul with ⟨a, hrc, hle, hocc, hbefore⟩ | ⟨hrc, hno⟩
  · exact Or.inl ⟨_, a, hle, ⟨hle, hocc, hbefore⟩, searchFrom_found (hmatch.trans hrc)⟩
  · refine Or.inr ⟨hno, ?_⟩
    rw [searchFrom_noMatch (hmatch.trans hrc), if_pos (ScanState.options_none.mpr hne)]

theorem skipAhead_single {c : UInt8} (hfind : literal.head? = some c)
    (huse : fs.mUseLiteral = false) (hlitPrefix : fs.mUseLitPrefix = false)
    (hrange : fs.mUseRangePairTable = false)
    (htable : fs.mUseFirstCodeUnitTable = true → fs.mCompiledCuBitmap = [c]) {stop : Nat}
    (hstop : stop ≤ file.length) :
    (∃ so, fs.skipAhead file .none stop = some so ∧ stop ≤ so ∧ so ≤ file.length ∧
      ∀ q, stop ≤ q → q < so → ¬ OccursAt file literal q) ∨
    (fs.skipAhead file .none stop = none ∧ ∀ q, stop ≤ q → ¬ OccursAt file literal q) := by
  have hhead : literal[0]? = some c := by rw [← List.head?_eq_getElem?, hfind]
  have hat : ∀ q, OccursAt file literal q → q < file.length ∧ fileMem file q = c := by
    intro q hocc
    have hq := List.getElem?_eq_some_iff.mp (hocc.getElem? hhead)
    refine ⟨hq.1, ?_⟩
    exact bytesAt_iff.mp hocc.2 0 c hhead
  by_cases hcu : fs.mUseFirstCodeUnitTable = true
  · have hskip : fs.skipAhead file .none stop =
        if stop + find c (fileMem file) stop (file.length - stop) ≠ file.length then
          some (stop + find c (fileMem file) stop (file.length - stop)) else none := by
      rw [skipAhead, if_pos ⟨rfl, huse⟩, if_neg (by simp [hlitPrefix]), if_pos hcu, htable hcu]
      rfl
    have hfirst := isFirst_find c (fileMem file) stop (file.length - stop)
    have hmiss : ∀ q, stop ≤ q → q < stop + find c (fileMem file) stop (file.length - stop) →
        ¬ OccursAt file literal q := by
      intro q hq hlt hocc
      refine hfirst.before (q - stop) (by omega) ?_
      rw [show stop + (q - stop) = q by omega]
      exact (hat q hocc).2
    have hle := hfirst.le
    rw [hskip]
    split
    · exact Or.inl ⟨_, rfl, Nat.le_add_right _ _, by omega, hmiss⟩
    · refine Or.inr ⟨rfl, fun q hq hocc => hmiss q hq ?_ hocc⟩
      have := (hat q hocc).1
      omega
  · refine Or.inl ⟨stop, ?_, Nat.le_refl _, hstop, fun q hq hlt => by omega⟩
    exact skipAhead_plain (by simp [Skips, hlitPrefix, hrange, hcu])

theorem regex_findsLiteral {c : UInt8} (hfind : literal.head? = some c)
    (huse : fs.mUseLiteral = false) (hlitPrefix : fs.mUseLitPrefix = false)
    (hrange : fs.mUseRangePairTable = false)
    (htable : fs.mUseFirstCodeUnitTable = true → fs.mCompiledCuBitmap = [c])
    (hok : ∀ q, OccursAt file literal q → newline ∉ literal) :
    FindsLiteral fs (literalRegex literal file).pcre2Match file literal := by
  intro s hlt hne hstop
  rw [scanFileStep_plain hlt hne]
  rcases skipAhead_single hfind huse hlitPrefix hrange htable hstop with
    ⟨so, hskip, hle, hso, hmiss⟩ | ⟨hskip, hno⟩
  · rw [hskip]
    dsimp only
    have hmatch : fs.matchFrom (literalRegex literal file).pcre2Match file s.options so =
        (literalRegex literal file).pcre2Match so .none := by
      rw [matchFrom, if_neg (by simp [huse]), ScanState.options_none.mpr hne]
    rcases Regex.pcre2Match_none (r := literalRegex literal file) so with
      ⟨a, e, hrc, hsa, he, hbefore⟩ | ⟨hrc, hno⟩
    · rw [literalRegex_matchAt (hok a)] at he
      split at he
      · rename_i hocc
        obtain rfl := Option.some.inj he
        refine Or.inl ⟨so, a, hsa, ⟨Nat.le_trans hle hsa, hocc, fun q hq hqa hq' => ?_⟩,
          searchFrom_found (hmatch.trans hrc)⟩
        rcases Nat.lt_or_ge q so with hqs | hqs
        · exact hmiss q hq hqs hq'
        · have := hbefore q hqs hqa
          rw [literalRegex_matchAt (hok q), if_pos hq'] at this
          simp at this
      · simp at he
    · refine Or.inr ⟨fun q hq hq' => ?_, ?_⟩
      · rcases Nat.lt_or_ge q so with hqs | hqs
        · exact hmiss q hq hqs hq'
        · have := hno q hqs (by have := hq'.1; omega)
          rw [literalRegex_matchAt (hok q), if_pos hq'] at this
          simp at this
      · rw [searchFrom_noMatch (hmatch.trans hrc), if_pos (ScanState.options_none.mpr hne)]
  · rw [hskip]
    exact Or.inr ⟨hno, rfl⟩

end Paths

/-- Two scans that differ in the start offsets of their last searches only. -/
structure SameScan (file : Bytes) (s t : ScanState) : Prop where
  same : t = { s with startOffset := t.startOffset }
  left : s.startOffset < file.length
  right : t.startOffset < file.length
  notEmpty : s.ovector.start ≠ some s.ovector.stop
  stop_le : s.ovector.stop ≤ file.length
  searchEnd_le : s.prevLinenoSearchEnd ≤ s.ovector.stop

def SameResult (res res' : ScanResult) : Prop :=
  res.exit = .finished ∧ res'.exit = .finished ∧ res.ml = res'.ml

theorem SameScan.package {s t : ScanState} (h : SameScan file s t) {so so' a : Nat}
    (hne : literal ≠ []) (hocc : FirstOccurrence file literal s.ovector.stop a)
    (hok : newline ∉ literal) (hso : so ≤ a) (hso' : so' ≤ a) :
    (s.package file so a (a + literal.length)).Related (SameScan file) SameResult
      (t.package file so' a (a + literal.length)) := by
  have hpos := List.length_pos_iff.mpr hne
  have hlen := hocc.occurs.1
  have hnext : ∀ u v : ScanState, v = { u with startOffset := v.startOffset } →
      u.ovector = ⟨some a, a + literal.length⟩ → u.prevLinenoSearchEnd = a → u.startOffset = so →
      v.startOffset = so' → SameScan file u v := by
    intro u v huv hov hend hu hv
    refine ⟨huv, by omega, by omega, ?_, by rw [hov]; exact hlen, by rw [hov, hend]; dsimp only; omega⟩
    rw [hov]
    simp only [ne_eq, Option.some.injEq]
    omega
  rw [h.same]
  unfold ScanState.package
  dsimp only
  split
  · exact hnext _ _ rfl rfl rfl rfl rfl
  · split
    · rename_i m hm
      exact hnext _ _ rfl rfl rfl rfl rfl
    · rename_i hnone
      rw [Match.new?_eq_none_iff (by omega) hlen] at hnone
      exact (hnone (hocc.occurs.sepFree_iff.mpr hok)).elim

theorem SameScan.step {fs fs' : FileScannerPCRE2} {pcre2Match pcre2Match' : Pcre2Match}
    (hne : literal ≠ []) (hok : ∀ q, OccursAt file literal q → newline ∉ literal)
    (hfinds : FindsLiteral fs pcre2Match file literal)
    (hfinds' : FindsLiteral fs' pcre2Match' file literal) (s t : ScanState)
    (h : SameScan file s t) :
    (fs.scanFileStep pcre2Match file s).Related (SameScan file) SameResult
      (fs'.scanFileStep pcre2Match' file t) := by
  have hov : t.ovector = s.ovector := by rw [h.same]
  have hml : t.ml = s.ml := by rw [h.same]
  rcases hfinds s h.left h.notEmpty h.stop_le with ⟨so, a, hso, hocc, hstep⟩ | ⟨hno, hstep⟩ <;>
    rcases hfinds' t h.right (hov ▸ h.notEmpty) (hov ▸ h.stop_le) with
      ⟨so', a', hso', hocc', hstep'⟩ | ⟨hno', hstep'⟩
  · rw [hov] at hocc'
    obtain rfl := hocc.unique hocc'
    rw [hstep, hstep']
    exact h.package hne hocc (hok a hocc.occurs) hso hso'
  · exact (hno' a (hov ▸ hocc.le) hocc.occurs).elim
  · exact (hno a' (hov ▸ hocc'.le) hocc'.occurs).elim
  · rw [hstep, hstep']
    exact ⟨rfl, rfl, hml.symm⟩

theorem scanFile_literal_engine {fs : FileScannerPCRE2} (huse : fs.mUseLiteral = true)
    (pcre2Match pcre2Match' : Pcre2Match) (n : Nat) :
    fs.scanFile pcre2Match file n = fs.scanFile pcre2Match' file n := by
  have hstep : fs.scanFileStep pcre2Match file = fs.scanFileStep pcre2Match' file := by
    funext s
    simp only [scanFileStep, searchFrom, matchFrom, if_pos huse]
  rw [scanFile, hstep, scanFile]

theorem scanFile_literal_done {fs : FileScannerPCRE2} (huse : fs.mUseLiteral = true)
    (hne : fs.mLiteralSearchString.bytes ≠ []) (pcre2Match : Pcre2Match) (file : Bytes) :
    ∃ n res, fs.scanFile pcre2Match file n = .done res := by
  have hin := (literalRegex fs.mLiteralSearchString.bytes file).pcre2Match_inBounds
  have hempty := (literalRegex fs.mLiteralSearchString.bytes file).pcre2Match_notEmptyAtStart
  obtain ⟨n, res, hdone, -⟩ := scanFile_done (I := fun _ => True) (Q := fun _ => True) hin
    hempty (fun _ => hne) (fun s _ _ => by cases fs.scanFileStep _ file s <;> trivial) trivial
  exact ⟨n, res, (scanFile_literal_engine huse pcre2Match _ n).trans hdone⟩

theorem scanFile_same {fs fs' : FileScannerPCRE2} (pcre2Match : Pcre2Match) {pcre2Match' : Pcre2Match}
    (huse : fs.mUseLiteral = true) (hne : literal ≠ [])
    (hlit : fs.mLiteralSearchString.bytes = literal)
    (hok : ∀ q, OccursAt file literal q → newline ∉ literal)
    (hfinds' : FindsLiteral fs' pcre2Match' file literal) :
    ∃ n res res', fs.scanFile pcre2Match file n = .done res ∧
      fs'.scanFile pcre2Match' file n = .done res' ∧ SameResult res res' := by
  by_cases hfile : file = []
  · subst hfile
    exact ⟨1, ⟨[], .finished⟩, ⟨[], .finished⟩, run_succ_done (by simp [scanFileStep]) 0,
      run_succ_done (by simp [scanFileStep]) 0, rfl, rfl, rfl⟩
  have hpos := List.length_pos_iff.mpr hfile
  obtain ⟨n, res, hdone⟩ := scanFile_literal_done huse (hlit.symm ▸ hne) pcre2Match file
  have hinit : SameScan file {} {} := ⟨rfl, hpos, hpos, by simp, Nat.zero_le _, Nat.le_refl 0⟩
  have hrel := run_related
    (SameScan.step hne hok (literal_findsLiteral pcre2Match file huse hlit) hfinds')
    n hinit
  change (fs.scanFile pcre2Match file n).Related _ _ (fs'.scanFile pcre2Match' file n) at hrel
  rw [hdone] at hrel
  cases hdone' : fs'.scanFile pcre2Match' file n with
  | next t =>
    rw [hdone'] at hrel
    exact hrel.elim
  | done res' =>
    rw [hdone'] at hrel
    exact ⟨n, res, res', hdone, hdone', hrel⟩

theorem scanFile_literal_throws {fs : FileScannerPCRE2} (pcre2Match : Pcre2Match)
    (huse : fs.mUseLiteral = true) (hlit : fs.mLiteralSearchString.bytes = literal)
    (hnl : newline ∈ literal) {q : Nat} (hocc : OccursAt file literal q) :
    fs.scanFile pcre2Match file 1 = .done ⟨[], .exception⟩ := by
  have hpos : 0 < file.length := by
    have := List.length_pos_of_mem hnl
    have := hocc.1
    omega
  rcases literal_findsLiteral pcre2Match file huse hlit {} hpos (by simp)
    (Nat.zero_le _) with ⟨so, a, -, hfirst, hstep⟩ | ⟨hno, -⟩
  · refine run_succ_done (hstep.trans ?_) 0
    have hnone : ∀ l, Match.new? file a (a + literal.length) l = none := by
      intro l
      rw [Match.new?_eq_none_iff (by have := hfirst.occurs.1; omega) hfirst.occurs.1,
        hfirst.occurs.sepFree_iff]
      exact not_not_intro hnl
    simp only [ScanState.package, hnone]
    rw [if_neg (by omega)]
  · exact (hno q (Nat.zero_le q) hocc).elim

/-- The literal path and the regex path that it replaces give the same report without error
exactly when the literal has no newline or the file no occurrence of it. -/
theorem literalPath_agrees_iff {sse lit : Bool} {info : PatternInfo} {p : Pattern}
    {pcre2Match : Pcre2Match} (hne : p.bytes ≠ [])
    (hlit : lit = true ∨ isPatternLiteral p.bytes = true) (hbitmap : info.firstBitmap = none)
    (hunit : info.firstCodeType = 1 → p.bytes.head? = some info.firstCodeUnit) :
    (∃ n n' res res', (analyzed sse false false lit info p).scanFile pcre2Match file n = .done res ∧
      { analyzed sse false false lit info p with mUseLiteral := false }.scanFile
        (literalRegex p.bytes file).pcre2Match file n' = .done res' ∧
      res.exit = .finished ∧ res'.exit = .finished ∧ res.ml = res'.ml) ↔
    (newline ∉ p.bytes ∨ ∀ q, ¬ OccursAt file p.bytes q) := by
  have huse : (analyzed sse false false lit info p).mUseLiteral = true :=
    analyzed_mUseLiteral.mpr ⟨rfl, rfl, hlit⟩
  have hsearch := congrArg Pattern.bytes (analyzed_mLiteralSearchString huse)
  constructor
  · rintro ⟨n, n', res, res', hdone, -, hexit, -⟩
    by_contra hcond
    simp only [not_or, not_not, not_forall] at hcond
    obtain ⟨hnl, q, hocc⟩ := hcond
    have hthrow := scanFile_literal_throws pcre2Match huse hsearch hnl hocc
    have := run_done_unique hdone hthrow
    rw [this] at hexit
    simp at hexit
  · intro hcond
    have hok : ∀ q, OccursAt file p.bytes q → newline ∉ p.bytes := fun q hq =>
      hcond.resolve_right fun hno => hno q hq
    obtain ⟨c, hc⟩ : ∃ c, p.bytes.head? = some c := by
      cases h : p.bytes with
      | nil => exact (hne h).elim
      | cons c cs => exact ⟨c, rfl⟩
    have hfinds : FindsLiteral { analyzed sse false false lit info p with mUseLiteral := false }
        (literalRegex p.bytes file).pcre2Match file p.bytes := by
      refine regex_findsLiteral hc rfl (analyzed_mUseLitPrefix huse)
        (analyzed_mUseRangePairTable hbitmap) (fun htable => ?_) hok
      obtain ⟨htype, hcu⟩ := analyzed_mCompiledCuBitmap hbitmap htable
      rw [hunit htype] at hc
      exact hcu.trans (by rw [Option.some.inj hc])
    obtain ⟨n, res, res', hdone, hdone', hexit, hexit', hml⟩ :=
      scanFile_same pcre2Match huse hne hsearch hok hfinds
    exact ⟨n, n, res, res', hdone, hdone', hexit, hexit', hml⟩

theorem literalPath_agrees_iff_ab :
    let p : Pattern := ⟨[97, 98], by decide⟩
    let file : Bytes := [97, 10, 120, 97, 98, 10]
    ∃ n n' res res', (analyzed true false false false ⟨none, 1, 97⟩ p).scanFile
        (fun _ _ => .noMatch) file n = .done res ∧
      { analyzed true false false false ⟨none, 1, 97⟩ p with mUseLiteral := false }.scanFile
        (literalRegex p.bytes file).pcre2Match file n' = .done res' ∧
      res.exit = .finished ∧ res'.exit = .finished ∧ res.ml = res'.ml :=
  (literalPath_agrees_iff (by decide) (by decide) rfl (fun _ => rfl)).mpr (Or.inl (by decide))

/-- The literal `a\nb` on a file that has it: the literal path ends in an exception. -/
theorem literalPath_newline_throws :
    let p : Pattern := ⟨[97, 10, 98], by decide⟩
    let file : Bytes := [97, 10, 98, 10]
    ¬ ∃ n n' res res', (analyzed true false false false ⟨none, 1, 97⟩ p).scanFile
        (fun _ _ => .noMatch) file n = .done res ∧
      { analyzed true false false false ⟨none, 1, 97⟩ p with mUseLiteral := false }.scanFile
        (literalRegex p.bytes file).pcre2Match file n' = .done res' ∧
      res.exit = .finished ∧ res'.exit = .finished ∧ res.ml = res'.ml := by
  rintro p file ⟨n, n', res, res', hdone, -, hexit, -⟩
  have hocc : OccursAt file p.bytes 0 := by decide
  have huse : (analyzed true false false false ⟨none, 1, 97⟩ p).mUseLiteral = true := by decide
  have hthrow := scanFile_literal_throws (fun _ _ => .noMatch) huse rfl (by decide) hocc
  rw [run_done_unique hdone hthrow] at hexit
  simp at hexit

end Ucg
