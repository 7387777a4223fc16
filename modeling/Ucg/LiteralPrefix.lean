import Ucg.FirstByte
import Ucg.Lib.RegexText
import Ucg.SkipAhead

/-! The literal prefix of a regex: every match begins with it, and searching for it first does not
show in what a scan reports. -/

namespace Ucg

open FileScannerPCRE2 Iteration RegexText Segments

theorem getLiteralPrefixLen_spec {regex : Bytes} (h : 1 < getLiteralPrefixLen regex) :
    bar ∉ regex ∧ ∃ run rest, regex = run ++ rest ∧ (∀ c ∈ run, c ∉ metaBytes) ∧
      getLiteralPrefixLen regex ≤ run.length ∧
      ∀ c ∈ optionalMarks, rest.head? = some c → getLiteralPrefixLen regex ≤ run.dropLast.length := by
  have hle : regex.findIdx metachars.contains ≤ regex.length := List.findIdx_le_length
  have hlen : (regex.take (regex.findIdx metachars.contains)).length = regex.findIdx metachars.contains := by
    rw [List.length_take, Nat.min_eq_left hle]
  have hplain : ∀ c ∈ regex.take (regex.findIdx metachars.contains), c ∉ metaBytes := by
    intro c hc
    obtain ⟨i, hi, rfl⟩ := List.mem_iff_getElem.mp hc
    rw [hlen] at hi
    rw [List.getElem_take]
    have hnot := List.not_of_lt_findIdx hi
    simpa [metachars, metaBytes] using hnot
  rw [getLiteralPrefixLen] at h ⊢
  dsimp only at h ⊢
  split_ifs at h ⊢ with hbar hall hmark
  · exact absurd h (Nat.lt_irrefl 1)
  · exact absurd h (Nat.lt_irrefl 1)
  · refine ⟨by simpa [alternation, bar] using hbar, _, _, (List.take_append_drop _ _).symm, hplain, ?_, fun _ _ _ => ?_⟩
    · rw [hlen]
      omega
    · rw [List.length_dropLast, hlen]
      omega
  · refine ⟨by simpa [alternation, bar] using hbar, _, _, (List.take_append_drop _ _).symm, hplain, ?_, ?_⟩
    · rw [hlen]
      omega
    · intro c hc hhead
      refine absurd ⟨by omega, ?_⟩ hmark
      rw [List.head?_drop] at hhead
      rw [List.getD_eq_getElem?_getD, hhead]
      exact List.contains_iff_mem.mpr hc

theorem literalPrefix_begins {subject : Bytes} {r : Re} (hr : r.WellFormed) {s e : Nat}
    (hmatch : r.Matches subject s e) (h : 1 < getLiteralPrefixLen r.text) :
    r.text.take (getLiteralPrefixLen r.text) <+: subject.drop s := by
  obtain ⟨hbar, run, rest, htext, hplain, hle, hmarks⟩ := getLiteralPrefixLen_spec h
  have hbegins := hmatch.beginsWith hr hbar htext hplain
  generalize getLiteralPrefixLen r.text = len at *
  rw [htext]
  by_cases hmark : ∃ c ∈ optionalMarks, rest.head? = some c
  · obtain ⟨c, hc, hhead⟩ := hmark
    have hshort := hmarks c hc hhead
    have hshorter : run.take len = run.dropLast.take len := by
      rw [List.length_dropLast] at hshort
      rw [List.dropLast_eq_take, List.take_take, Nat.min_eq_left hshort]
    have htake : run.dropLast.take len <+: run.dropLast := List.take_prefix _ _
    rw [List.take_append_of_le_length hle, hshorter]
    exact htake.trans hbegins.dropLast
  · have htake : run.take len <+: run := List.take_prefix _ _
    rw [List.take_append_of_le_length hle]
    exact htake.trans (hbegins.all fun c hc hhead => hmark ⟨c, hc, hhead⟩)

theorem slice_of_begins {subject text : Bytes} {s : Nat} (h : text <+: subject.drop s) :
    slice subject s (s + text.length) = text := by
  rw [slice, List.drop_take, Nat.add_sub_cancel_left]
  exact (List.prefix_iff_eq_take.mp h).symm

theorem occursAt_of_begins {file text : Bytes} {q : Nat} (hne : text ≠ []) (h : text <+: file.drop q) :
    OccursAt file text q := by
  have hlen := h.length_le
  rw [List.length_drop] at hlen
  have hpos := List.length_pos_iff.mpr hne
  refine ⟨by omega, bytesAt_iff.mpr fun j c hc => ?_⟩
  have hat : file[q + j]? = some c := by
    rw [← List.getElem?_drop]
    obtain ⟨tail, htail⟩ := h
    rw [← htail, List.getElem?_append_left (List.getElem?_eq_some_iff.mp hc).1, hc]
  rw [fileMem, List.getD_eq_getElem?_getD, hat]
  rfl

/-- The library's matches are matches of the pattern in the sense of its documentation. -/
def CompiledRegex.Compiles (c : CompiledRegex) (r : Re) : Prop :=
  ∀ file p e, e ∈ (c.regex file).solutions p → r.Matches file p e

namespace FileScannerPCRE2

/-- The scanner that calls the engine at once. -/
def withoutShortcuts (fs : FileScannerPCRE2) : FileScannerPCRE2 :=
  { fs with mUseLitPrefix := false, mUseFirstCodeUnitTable := false, mUseRangePairTable := false }

def withoutLitPrefix (fs : FileScannerPCRE2) : FileScannerPCRE2 := { fs with mUseLitPrefix := false }

variable {info : PatternInfo} {p : Pattern} {sse ic wr lit : Bool}

theorem analyzed_of_mUseLitPrefix (h : (analyzed sse ic wr lit info p).mUseLitPrefix = true) :
    ic = false ∧ (analyzed sse ic wr lit info p).mUseLiteral = false ∧
      1 < getLiteralPrefixLen p.bytes ∧
      (analyzed sse ic wr lit info p).mLiteralSearchString = p.take (getLiteralPrefixLen p.bytes) ∧
      (analyzed sse ic wr lit info p).mUseFirstCodeUnitTable = true := by
  unfold analyzed analyzeRegex analyzeLiteral at h ⊢
  dsimp only at h ⊢
  split_ifs at h ⊢ with hcase hliteral htable hlen
  · simp at h
  · refine ⟨?_, by simp, hlen, rfl, htable⟩
    simpa using hcase.1
  all_goals simp at h

end FileScannerPCRE2

section Passes

variable {file : Bytes} {r : Regex file} {fs : FileScannerPCRE2}

theorem passesNoMatch_withoutShortcuts (huse : fs.mUseLiteral = false) (r : Regex file) :
    PassesNoMatch fs.withoutShortcuts r := by
  have hplain : ¬ fs.withoutShortcuts.Skips := by simp [Skips, withoutShortcuts]
  refine ⟨huse, fun stop so _ hskip => ?_, fun stop _ hskip => ?_⟩
  · rw [skipAhead_plain hplain] at hskip
    obtain rfl := Option.some.inj hskip
    exact ⟨Nat.le_refl _, fun q hq hlt => absurd hq (Nat.not_le_of_lt hlt)⟩
  · rw [skipAhead_plain hplain] at hskip
    cases hskip

theorem passesNoMatch_litPrefix (huse : fs.mUseLiteral = false) (hflag : fs.mUseLitPrefix = true)
    (hbegins : ∀ q, r.matchAt q ≠ none → OccursAt file fs.mLiteralSearchString.bytes q) :
    PassesNoMatch fs r := by
  have hnone : ∀ q, ¬ OccursAt file fs.mLiteralSearchString.bytes q → r.matchAt q = none := fun q =>
    not_imp_comm.mp (hbegins q)
  refine ⟨huse, fun stop so hstop hskip => ?_, fun stop hstop hskip => ?_⟩
  · rw [skipAhead, if_pos ⟨rfl, huse⟩, if_pos hflag] at hskip
    rcases resolveLiteralMatch_spec fs.sysHasSse42 hstop fs.mLiteralSearchString.nulFree with
      ⟨a, hrc, hle, hocc, hbefore⟩ | ⟨hrc, -⟩
    · rw [hrc] at hskip
      dsimp only at hskip
      split at hskip
      · cases hskip
      · obtain rfl := Option.some.inj hskip
        exact ⟨hle, fun q hq hlt => hnone q (hbefore q hq hlt)⟩
    · rw [hrc] at hskip
      cases hskip
  · rw [skipAhead, if_pos ⟨rfl, huse⟩, if_pos hflag] at hskip
    rcases resolveLiteralMatch_spec fs.sysHasSse42 hstop fs.mLiteralSearchString.nulFree with
      ⟨a, hrc, -, hocc, -⟩ | ⟨-, hno⟩
    · rw [hrc] at hskip
      dsimp only at hskip
      have hlen := hocc.1
      rw [if_neg (by omega)] at hskip
      cases hskip
    · exact fun q hq => hnone q (hno q hq)

theorem passesNoMatch_single {c : UInt8} (huse : fs.mUseLiteral = false)
    (hflag : fs.mUseLitPrefix = false) (hrange : fs.mUseRangePairTable = false)
    (htable : fs.mUseFirstCodeUnitTable = true → fs.mCompiledCuBitmap = [c])
    (hbegins : ∀ q, r.matchAt q ≠ none → file[q]? = some c) : PassesNoMatch fs r := by
  have hnone : ∀ q, ¬ OccursAt file [c] q → r.matchAt q = none := by
    intro q hno
    by_contra hmatch
    refine hno (occursAt_of_begins (by simp) ?_)
    exact Re.singleton_prefix_drop (hbegins q hmatch)
  have hhead : ([c] : Bytes).head? = some c := rfl
  refine ⟨huse, fun stop so hstop hskip => ?_, fun stop hstop hskip => ?_⟩ <;>
    rcases skipAhead_single hhead huse hflag hrange htable hstop with
      ⟨so', hskip', hle, -, hmiss⟩ | ⟨hskip', hno⟩
  · obtain rfl := Option.some.inj (hskip'.symm.trans hskip)
    exact ⟨hle, fun q hq hlt => hnone q (hmiss q hq hlt)⟩
  · cases hskip'.symm.trans hskip
  · cases hskip'.symm.trans hskip
  · exact fun q hq => hnone q (hno q hq)

end Passes

section Scan

variable {c : CompiledRegex} {r : Re} {p : Pattern} {sse ic wr lit : Bool}

theorem begins_of_solutions (hr : r.WellFormed) (hc : c.Compiles r) (hlen : 1 < getLiteralPrefixLen r.text)
    {file : Bytes} {q : Nat} (hq : (c.regex file).solutions q ≠ []) :
    r.text.take (getLiteralPrefixLen r.text) <+: file.drop q := by
  obtain ⟨e, he⟩ := List.exists_mem_of_ne_nil _ hq
  exact literalPrefix_begins hr (hc file q e he) hlen

theorem solutions_of_matchAt {file : Bytes} {r : Regex file} {q : Nat} (h : r.matchAt q ≠ none) :
    r.solutions q ≠ [] := by
  obtain ⟨e, he⟩ := Option.ne_none_iff_exists'.mp h
  exact List.ne_nil_of_mem (Regex.mem_accepted.mp (List.mem_of_head? he)).1

theorem length_literalPrefix {text : Bytes} (hlen : 1 < getLiteralPrefixLen text) :
    (text.take (getLiteralPrefixLen text)).length = getLiteralPrefixLen text := by
  obtain ⟨-, run, rest, htext, -, hle, -⟩ := getLiteralPrefixLen_spec hlen
  have hrun : run.length ≤ text.length := by simp [htext]
  rw [List.length_take]
  omega

theorem literalPrefix_ne_nil {text : Bytes} (hlen : 1 < getLiteralPrefixLen text) :
    text.take (getLiteralPrefixLen text) ≠ [] := by
  rw [← List.length_pos_iff, length_literalPrefix hlen]
  omega

/-- The literal prefix optimisation is invisible: every match of the regex begins with the prefix,
and the scan that looks for the prefix first returns what the scan without any shortcut returns, and,
where the library reports one first byte, which it matches as it stands, and no table of others, what
the scan that looks for this byte alone returns. -/
theorem literalPrefix_invisible (hr : r.WellFormed) :
    (∀ subject s e, r.Matches subject s e → 1 < getLiteralPrefixLen r.text →
      slice subject s (s + getLiteralPrefixLen r.text) = r.text.take (getLiteralPrefixLen r.text)) ∧
    ∀ (c : CompiledRegex) (p : Pattern) (sse ic wr lit : Bool), c.Compiles r → p.bytes = r.text →
      (analyzed sse ic wr lit c.info p).mUseLitPrefix = true → ∀ file, ∃ n res,
        (analyzed sse ic wr lit c.info p).scanFile (c.regex file).pcre2Match file n = .done res ∧
        (analyzed sse ic wr lit c.info p).withoutShortcuts.scanFile (c.regex file).pcre2Match file n =
          .done res ∧
        (c.FirstCodeUnit False → c.info.firstBitmap = none →
          (analyzed sse ic wr lit c.info p).withoutLitPrefix.scanFile (c.regex file).pcre2Match file n =
            .done res) := by
  refine ⟨fun subject s e hmatch hlen => ?_, fun c p sse ic wr lit hc hp hflag file => ?_⟩
  · have hslice := slice_of_begins (literalPrefix_begins hr hmatch hlen)
    rwa [length_literalPrefix hlen] at hslice
  · obtain ⟨-, huse, hlen, hstring, htable⟩ := analyzed_of_mUseLitPrefix hflag
    have hbytes : (p.take (getLiteralPrefixLen p.bytes)).bytes =
        r.text.take (getLiteralPrefixLen r.text) := by
      rw [← hp]
      rfl
    rw [hp] at hlen
    have hprefixed : PassesNoMatch (analyzed sse ic wr lit c.info p) (c.regex file) := by
      refine passesNoMatch_litPrefix huse hflag fun q hq => ?_
      rw [hstring, hbytes]
      exact occursAt_of_begins (literalPrefix_ne_nil hlen)
        (begins_of_solutions hr hc hlen (solutions_of_matchAt hq))
    obtain ⟨n, res, hdone⟩ := scanFile_passesNoMatch_done hprefixed
    refine ⟨n, res, hdone, ?_, fun hinfo hbitmap => ?_⟩
    · exact scanFile_passesNoMatch hprefixed (passesNoMatch_withoutShortcuts huse _) hdone
    · have hcu := (analyzed_mCompiledCuBitmap hbitmap htable).2
      have haccepts : TableAccepts (analyzed sse ic wr lit c.info p) c :=
        tableAccepts_of_keepsCase hinfo (Or.inr fun hloses => hloses.2.2.1)
      refine scanFile_passesNoMatch hprefixed ?_ hdone
      refine passesNoMatch_single huse rfl (analyzed_mUseRangePairTable hbitmap) (fun _ => hcu) ?_
      intro q hq
      obtain ⟨b, hat, hb⟩ := haccepts.1 htable file q (solutions_of_matchAt hq)
      rw [hcu, List.mem_singleton] at hb
      rw [hat, hb]

end Scan

/-- The regex `ab.`, and its matches in every file. -/
def abAny : Re := .seq (.seq (.literal 97) (.literal 98)) .any

def abAnyCompiled : CompiledRegex where
  info := ⟨none, 1, 97⟩
  regex file := .within fun q =>
    if file[q]? = some 97 ∧ file[q + 1]? = some 98 ∧ (file[q + 2]?).any (· != lineFeed) then [q + 3] else []

theorem abAny_solutions {file : Bytes} {q e : Nat} (h : e ∈ (abAnyCompiled.regex file).solutions q) :
    file[q]? = some 97 ∧ abAny.Matches file q e := by
  have hmem := (List.mem_filter.mp h).1
  dsimp only at hmem
  split_ifs at hmem with hcond
  · obtain ⟨ha, hb, hany⟩ := hcond
    obtain rfl := List.mem_singleton.mp hmem
    obtain ⟨b, hat, hne⟩ := (Option.any_eq_true _ _).mp hany
    exact ⟨ha, q + 2, ⟨q + 1, ⟨ha, rfl⟩, hb, rfl⟩, ⟨b, hat, by simpa using hne⟩, rfl⟩
  · cases hmem

theorem literalPrefix_invisible_ab :
    slice ([120, 97, 98, 99] : Bytes) 1 3 = [97, 98] ∧ ∃ n res,
      (analyzed true false false false abAnyCompiled.info ⟨[97, 98, 46], by decide⟩).scanFile
        (abAnyCompiled.regex [120, 97, 98, 99]).pcre2Match [120, 97, 98, 99] n = .done res ∧
      (analyzed true false false false abAnyCompiled.info ⟨[97, 98, 46], by decide⟩).withoutLitPrefix.scanFile
        (abAnyCompiled.regex [120, 97, 98, 99]).pcre2Match [120, 97, 98, 99] n = .done res := by
  have hformed : abAny.WellFormed := by
    refine ⟨⟨?_, ?_, id, id⟩, trivial, id, id⟩ <;> simp [Re.WellFormed, bar]
  have hcompiles : abAnyCompiled.Compiles abAny := fun file q e he => (abAny_solutions he).2
  have hat : ∀ file q, (abAnyCompiled.regex file).solutions q ≠ [] → file[q]? = some 97 := by
    intro file q hq
    obtain ⟨e, he⟩ := List.exists_mem_of_ne_nil _ hq
    exact (abAny_solutions he).1
  have hinfo : abAnyCompiled.FirstCodeUnit False :=
    ⟨fun _ hbitmap => (nomatch hbitmap), fun _ file q hq => ⟨97, hat file q hq, rfl⟩, fun _ _ => hat⟩
  obtain ⟨hbegins, hscan⟩ := literalPrefix_invisible hformed
  refine ⟨hbegins [120, 97, 98, 99] 1 4 ⟨3, ⟨2, ⟨rfl, rfl⟩, rfl, rfl⟩, ⟨99, rfl, by decide⟩, rfl⟩ (by decide), ?_⟩
  obtain ⟨n, res, hdone, -, hwithout⟩ := hscan abAnyCompiled ⟨[97, 98, 46], by decide⟩ true false false false
    hcompiles rfl (by decide) [120, 97, 98, 99]
  exact ⟨n, res, hdone, hwithout hinfo rfl⟩

end Ucg
