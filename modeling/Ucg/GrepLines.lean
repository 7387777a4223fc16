import Ucg.LiteralPrefix

/-! The lines of a file with a match, each cut out at its newlines and searched by itself, and the
scan that reports them in one pass over the file. -/

namespace Ucg

open Segments Search Iteration FileScannerPCRE2

variable {file : Bytes}

/-- A match shows its place in one way. -/
theorem Match.IsAt.unique {m m' : Match} {q e : Nat} (hqe : q ≤ e) (h : m.IsAt file q e)
    (h' : m'.IsAt file q e) : m = m' := by
  obtain ⟨a, b, hseg, haq, heb, hpre, hpost⟩ := h.around
  obtain ⟨a', b', hseg', haq', heb', hpre', hpost'⟩ := h'.around
  obtain ⟨rfl, rfl⟩ := hseg.eq_of_mem hseg' haq (by omega) haq' (by omega)
  have hline := h.lineNumber.trans h'.lineNumber.symm
  have hmatched := h.matched.trans h'.matched.symm
  cases m
  cases m'
  simp_all

namespace Regex

/-- The first match that starts on the line from `a` to `b`, or at its end. -/
def firstOn (r : Regex file) (a b : Nat) : Option (Nat × Nat) :=
  (List.range' a (b + 1 - a)).findSome? fun q => (r.matchAt q).map fun e => (q, e)

/-- A line that is cut in three by its first match. -/
def grepLine (r : Regex file) : (Nat × Nat) × Nat → Option Match
  | ((a, b), lineNumber) => (r.firstOn a b).map fun (q, e) => {
      mLineNumber := lineNumber
      mPreMatch := slice file a q
      mMatch := slice file q e
      mPostMatch := slice file e b }

def grepLines (r : Regex file) : List Match := (numberedSegments newline file).filterMap r.grepLine

variable {r : Regex file}

theorem firstOn_eq_some_iff {a b q e : Nat} :
    r.firstOn a b = some (q, e) ↔
      a ≤ q ∧ q ≤ b ∧ r.matchAt q = some e ∧ ∀ p, a ≤ p → p < q → r.matchAt p = none := by
  rw [firstOn, findSome?_range'_eq_some_iff]
  constructor
  · rintro ⟨i, hle, hlt, hi, hbefore⟩
    obtain ⟨e', he, heq⟩ := Option.map_eq_some_iff.mp hi
    obtain ⟨rfl, rfl⟩ := Prod.mk.inj heq
    exact ⟨hle, by omega, he, fun p hp hlt => Option.map_eq_none_iff.mp (hbefore p hp hlt)⟩
  · rintro ⟨hle, hqb, he, hbefore⟩
    exact ⟨q, hle, by omega, by rw [he]; rfl, fun p hp hlt => by rw [hbefore p hp hlt]; rfl⟩

theorem lineOf_eq_of_mem {a b q : Nat} (h : IsSegment newline file a b) (ha : a ≤ q) (hb : q ≤ b) :
    lineOf newline file q = lineOf newline file a :=
  ((lineOf_eq_iff ha).mpr (h.free.mono (Nat.le_refl a) hb)).symm

theorem start_le_of_lineOf_eq {a b p q : Nat} (h : IsSegment newline file a b) (hq : a ≤ q) (hqb : q ≤ b)
    (hline : lineOf newline file p = lineOf newline file q) : a ≤ p := by
  by_contra hlt
  rcases h.starts with h0 | hs
  · omega
  · have hbefore := lineOf_lt_of_sep (show p ≤ a - 1 by omega) (show a - 1 < a by omega) hs
    rw [lineOf_eq_of_mem h hq hqb] at hline
    omega

theorem mem_grepLines {m : Match} :
    m ∈ r.grepLines ↔ ∃ q e, q ≤ file.length ∧ r.LeftmostOn (lineOf newline file q) q e ∧ m.IsAt file q e := by
  rw [grepLines, List.mem_filterMap]
  constructor
  · rintro ⟨⟨⟨a, b⟩, k⟩, hmem, hm⟩
    obtain ⟨hseg, rfl⟩ := mem_numberedSegments.mp hmem
    obtain ⟨⟨q, e⟩, hfirst, rfl⟩ := Option.map_eq_some_iff.mp hm
    obtain ⟨haq, hqb, he, hbefore⟩ := firstOn_eq_some_iff.mp hfirst
    obtain ⟨hqe, hlen, hfree⟩ := matchAt_bounds he
    have hline := lineOf_eq_of_mem hseg haq hqb
    have heb : e ≤ b := by
      by_contra hlt
      rcases hseg.ends with hend | hend
      · omega
      · exact hfree b hqb (by omega) hend
    refine ⟨q, e, by omega, ⟨rfl, he, fun p hp hpq => ?_⟩, ⟨hline.symm, rfl, a, b, hseg, haq, heb, rfl, rfl⟩⟩
    exact hbefore p (start_le_of_lineOf_eq hseg haq hqb hpq) hp
  · rintro ⟨q, e, hq, hleft, hat⟩
    obtain ⟨a, b, hseg, haq, heb, hpre, hpost⟩ := hat.around
    have hqe := (matchAt_bounds hleft.isMatch).1
    have hqb : q ≤ b := by omega
    refine ⟨((a, b), lineOf newline file a), mem_numberedSegments.mpr ⟨hseg, rfl⟩, ?_⟩
    have hfirst : r.firstOn a b = some (q, e) := firstOn_eq_some_iff.mpr
      ⟨haq, hqb, hleft.isMatch, fun p hp hpq => hleft.leftmost p hpq
        ((lineOf_eq_of_mem hseg hp (by omega)).trans (lineOf_eq_of_mem hseg haq hqb).symm)⟩
    have hline := hat.lineNumber.trans (lineOf_eq_of_mem hseg haq hqb)
    rw [grepLine, hfirst, Option.map_some]
    dsimp only
    rw [← hline, ← hpre, ← hpost, ← hat.matched]

theorem pairwise_grepLines (r : Regex file) :
    r.grepLines.Pairwise fun m m' => m.mLineNumber < m'.mLineNumber := by
  rw [grepLines, List.pairwise_filterMap]
  refine (pairwise_numberedSegments file).imp fun {s s'} hlt m hm m' hm' => ?_
  obtain ⟨-, -, rfl⟩ := Option.map_eq_some_iff.mp hm
  obtain ⟨-, -, rfl⟩ := Option.map_eq_some_iff.mp hm'
  exact hlt

/-- Matches on different lines in order that are the first ones of all lines with a match are the
lines with a match. -/
theorem eq_grepLines {ml : List Match} (hml : ml.Pairwise fun m m' => m.mLineNumber < m'.mLineNumber)
    (hfound : ∀ m ∈ ml, ∃ a e, m.IsAt file a e ∧ a ≤ e ∧ e ≤ file.length ∧ r.matchAt a ≠ none)
    (hall : ∀ q e, q ≤ file.length → r.LeftmostOn (lineOf newline file q) q e → ∃ m ∈ ml, m.IsAt file q e) :
    ml = r.grepLines := by
  have hnodup {l : List Match} (hl : l.Pairwise fun m m' => m.mLineNumber < m'.mLineNumber) : l.Nodup :=
    hl.imp fun hlt => by rintro rfl; exact Nat.lt_irrefl _ hlt
  have hmem (m : Match) : m ∈ ml ↔ m ∈ r.grepLines := by
    rw [mem_grepLines]
    constructor
    · intro hm
      obtain ⟨a, e, hat, hae, hlen, hmatch⟩ := hfound m hm
      obtain ⟨q, hfirst⟩ := exists_isFirst
        (fun i => lineOf newline file i = lineOf newline file a ∧ r.matchAt i ≠ none) a
      obtain ⟨hline, hq⟩ : lineOf newline file q = lineOf newline file a ∧ r.matchAt q ≠ none := by
        rcases Nat.lt_or_eq_of_le hfirst.le with hlt | rfl
        · exact hfirst.hit hlt
        · exact ⟨rfl, hmatch⟩
      obtain ⟨e', he'⟩ := Option.ne_none_iff_exists'.mp hq
      have hleft : r.LeftmostOn (lineOf newline file q) q e' := ⟨rfl, he', fun p hp hpq => by
        have := hfirst.before p hp
        rw [hpq, and_iff_right hline] at this
        exact not_not.mp this⟩
      have hqlen : q ≤ file.length := by
        have := hfirst.le
        omega
      obtain ⟨m', hm', hat'⟩ := hall q e' hqlen hleft
      -- both matches are on the same line, which has one
      have hsame : m'.mLineNumber = m.mLineNumber := by rw [hat'.lineNumber, hline, hat.lineNumber]
      have hone := filter_line_eq hm hml
      have hmem' : m' ∈ ml.filter fun x => x.mLineNumber = m.mLineNumber :=
        List.mem_filter.mpr ⟨hm', decide_eq_true hsame⟩
      rw [hone, List.mem_singleton] at hmem'
      exact ⟨q, e', hqlen, hleft, hmem' ▸ hat'⟩
    · rintro ⟨q, e, hq, hleft, hat⟩
      obtain ⟨m', hm', hat'⟩ := hall q e hq hleft
      rwa [hat.unique (matchAt_bounds hleft.isMatch).1 hat']
  have hperm := (List.perm_ext_iff_of_nodup (hnodup hml) (hnodup (pairwise_grepLines r))).mpr hmem
  exact hperm.eq_of_pairwise (fun _ _ _ _ h₁ h₂ => absurd h₁ (Nat.lt_asymm h₂)) hml (pairwise_grepLines r)

end Regex

section Pcre2

variable {fs : FileScannerPCRE2} {r : Regex file} {s : ScanState}

/-- A search has started behind the last byte only if it has found a match there. -/
def SeenToEnd (file : Bytes) (s : ScanState) : Prop :=
  s.startOffset < file.length ∨ s.ovector.start = some file.length

theorem SeenToEnd.step (huse : fs.mUseLiteral = false) (hplain : ¬ fs.Skips)
    (hs : Sound fs r.pcre2Match file s) (hlast : LastLine file s) (hcov : Covered r s)
    (h : SeenToEnd file s) :
    (fs.scanFileStep r.pcre2Match file s).Holds (SeenToEnd file) (fun res => res.exit = .finished ∧
      ∀ q e, q ≤ file.length → r.LeftmostOn (lineOf newline file q) q e → ∃ m ∈ res.ml, m.IsAt file q e) := by
  have hmoved {a e : Nat} {t : ScanState} (hle : s.ovector.stop ≤ a) (he : r.matchAt a = some e)
      (hstart : t.ovector.start = some a) (hoff : t.startOffset = s.ovector.stop) : SeenToEnd file t := by
    obtain ⟨hae, hlen, -⟩ := Regex.matchAt_bounds he
    rw [SeenToEnd, hstart, hoff, Option.some.injEq]
    omega
  -- Behind a match at the end of the file there is nothing left to cover.
  have hend (hstart : s.ovector.start = some file.length) {q e : Nat} (hq : q ≤ file.length)
      (hleft : r.LeftmostOn (lineOf newline file q) q e) : ∃ m ∈ s.ml, m.IsAt file q e := by
    have hstop := (hlast.last _ hstart).2
    refine hcov.reported q e hleft ?_
    rcases Nat.lt_or_eq_of_le hq with hlt | rfl
    · exact Or.inl (Nat.lt_of_lt_of_le hlt hstop)
    · exact Or.inr hstart
  refine scanFileStep_regex huse hplain hs hlast ?_ ?_ ?_ ?_ ?_ ?_ ?_
  · intro hguard
    exact ⟨rfl, fun q e => hend (h.resolve_left (by omega))⟩
  · intro hov
    exact ⟨rfl, fun q e => hend (by rw [hov])⟩
  · intro hnone
    refine ⟨rfl, fun q e hq hleft => hcov.reported q e hleft (Or.inl ?_)⟩
    by_contra hge
    have := hnone q (by omega) hq
    rw [hleft.isMatch] at this
    simp at this
  · intro p hp hov _
    exact Or.inl hp
  · intro p e hp hov he
    exact Or.inl hp
  · intro a e _ hle he _ _
    exact hmoved hle he rfl rfl
  · intro a e m _ hle he _ _ _
    exact hmoved hle he rfl rfl

theorem scanFile_plain_grepLines (huse : fs.mUseLiteral = false) (hplain : ¬ fs.Skips)
    (hhide : ¬ r.HidesMatch) (hfile : file ≠ []) :
    ∃ n, fs.scanFile r.pcre2Match file n = .done ⟨r.grepLines, .finished⟩ := by
  have hpos := List.length_pos_iff.mpr hfile
  obtain ⟨n, ⟨ml, exit⟩, hdone, hcomplete, rfl, hall⟩ := scanFile_regex_done
    (I := fun s => Covered r s ∧ SeenToEnd file s)
    (Q := fun res => Complete r res.ml ∧ res.exit = .finished ∧
      ∀ q e, q ≤ file.length → r.LeftmostOn (lineOf newline file q) q e → ∃ m ∈ res.ml, m.IsAt file q e)
    huse hplain
    (fun s hs hlast h => (h.1.step huse hplain hhide hs hlast).and (h.2.step huse hplain hs hlast h.1))
    ⟨covered_init r, Or.inl hpos⟩
  have hfound := scanFile_regex_matchAt (r := r) huse n
  rw [hdone] at hfound
  obtain rfl : ml = r.grepLines := Regex.eq_grepLines hcomplete.1 hfound hall
  exact ⟨n, hdone⟩

/-- Where no byte continues a character, no match is hidden. -/
theorem Regex.not_hidesMatch_of_noContinuation (h : file.all (fun c => c &&& 0xC0 != 0x80) = true) :
    ¬ r.HidesMatch := by
  rintro ⟨p, q, -, -, hpq, -, hskipped, -⟩
  obtain ⟨c, hat, hbits⟩ := hskipped q hpq (Nat.le_refl q)
  have hc := List.all_eq_true.mp h c (List.mem_of_getElem? hat)
  rw [hbits] at hc
  exact absurd hc (by decide)

theorem scanFile_engine_grepLines (hfs : PassesNoMatch fs r) (hhide : ¬ r.HidesMatch) (hfile : file ≠ []) :
    ∃ n, fs.scanFile r.pcre2Match file n = .done ⟨r.grepLines, .finished⟩ := by
  have hplain : ¬ fs.withoutShortcuts.Skips := by simp [Skips, withoutShortcuts]
  have huse : fs.withoutShortcuts.mUseLiteral = false := hfs.mUseLiteral
  obtain ⟨n, hdone⟩ := scanFile_plain_grepLines huse hplain hhide hfile
  exact ⟨n, scanFile_passesNoMatch (passesNoMatch_withoutShortcuts hfs.mUseLiteral r) hfs hdone⟩

/-- What a scanner looks for in a file: the matches of a regex, over shortcuts that pass none of
them, or the occurrences of a literal. -/
inductive SearchesFor (fs : FileScannerPCRE2) : Pcre2Match → Regex file → Prop
  | engine {r : Regex file} (hfs : PassesNoMatch fs r) (hhide : ¬ r.HidesMatch) :
      SearchesFor fs r.pcre2Match r
  | literal (pcre2Match : Pcre2Match) (huse : fs.mUseLiteral = true)
      (hne : fs.mLiteralSearchString.bytes ≠ []) (hnl : newline ∉ fs.mLiteralSearchString.bytes) :
      SearchesFor fs pcre2Match (literalRegex fs.mLiteralSearchString.bytes file)

/-- One pass over the file reports the lines with a match. -/
theorem scanFile_grepLines {pcre2Match : Pcre2Match} (h : SearchesFor fs pcre2Match r)
    (hfile : file ≠ []) : ∃ n, fs.scanFile pcre2Match file n = .done ⟨r.grepLines, .finished⟩ := by
  cases h with
  | engine hfs hhide => exact scanFile_engine_grepLines hfs hhide hfile
  | literal pcre2Match huse hne hnl =>
    set literal := fs.mLiteralSearchString.bytes with hliteral
    let engine : FileScannerPCRE2 := { fs.withoutShortcuts with mUseLiteral := false }
    have hplain : ¬ engine.Skips := by simp [engine, Skips, withoutShortcuts]
    obtain ⟨c, hhead⟩ := Option.isSome_iff_exists.mp (List.isSome_head?.mpr hne)
    have hfinds : FindsLiteral engine (literalRegex literal file).pcre2Match file literal :=
      regex_findsLiteral hhead rfl rfl rfl (fun h => absurd h Bool.false_ne_true) fun _ _ => hnl
    obtain ⟨n, ⟨ml, exit⟩, res', hdone, hdone', hexit, -, hml⟩ :=
      scanFile_same pcre2Match huse hne hliteral.symm (fun _ _ => hnl) hfinds
    have huse' : engine.mUseLiteral = false := rfl
    obtain ⟨n', hplainDone⟩ := scanFile_plain_grepLines (r := literalRegex literal file) huse' hplain
      (literalRegex_matchesText.not_hidesMatch hne hnl) hfile
    obtain rfl := run_done_unique hdone' hplainDone
    dsimp only at hexit hml
    rw [hexit, hml] at hdone
    exact ⟨n, hdone⟩

end Pcre2

end Ucg
