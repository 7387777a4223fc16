import Ucg.GrepLines
import Ucg.Soundness

/-! The scan loop of `FileScannerPCRE` around a compiled regex. It goes one byte past an empty match,
where the loop of `FileScannerPCRE2` may go further, and it ends with the file. -/

namespace Ucg

open Segments Iteration

variable {file : Bytes} {r : Regex file} {s : PcreState}

def MatchRc.toPcre : MatchRc → PcreRc
  | .noMatch => .noMatch
  | .error rc => .error rc
  | .ovectorTooSmall => .ovectorTooSmall
  | .found a b => .found a b

/-- `pcre_exec` with a regex, whose callout is the same. -/
def Regex.pcreExec (r : Regex file) : PcreExec :=
  fun _ startOffset options => (r.pcre2Match startOffset.toNat options).toPcre

theorem MatchRc.toPcre_eq_found {rc : MatchRc} {a b : Int} (h : rc.toPcre = .found a b) :
    ∃ s e : Nat, rc = .found s e ∧ a = s ∧ b = e := by
  cases rc with
  | found s e =>
    obtain ⟨rfl, rfl⟩ := PcreRc.found.inj h
    exact ⟨s, e, rfl, rfl, rfl⟩
  | _ => cases h

theorem Regex.pcreExec_inBounds (r : Regex file) : r.pcreExec.InBounds file := by
  intro so options a b hso h
  obtain ⟨s, e, hrc, rfl, rfl⟩ := MatchRc.toPcre_eq_found h
  obtain ⟨h₁, h₂, h₃⟩ := r.pcre2Match_inBounds so options s e hso hrc
  omega

/-- The first entry of the ovector behind a match that began at `last`. -/
def startEntry (last : Option Nat) : Int := last.elim (-1) fun a => (a : Int)

theorem startEntry_eq_iff (last : Option Nat) (stop : Nat) : startEntry last = stop ↔ last = some stop := by
  cases last with
  | none => simp only [startEntry, Option.elim_none, reduceCtorEq]
  | some a => simp [startEntry]

/-- The last match began at `last`, and all matches before `stop` are reported. The cursor is behind
the last match, or behind the byte where it was empty. -/
structure PcreCovered (r : Regex file) (s : PcreState) (last : Option Nat) (stop : Nat) : Prop where
  ovector : s.ovector = ⟨startEntry last, stop⟩
  stop_le : stop ≤ file.length
  fresh : last = none → stop = 0 ∧ s.prevLineno = 0
  lastMatch : ∀ a, last = some a → a ≤ stop ∧ r.matchAt a ≠ none ∧
    s.prevLineno = lineOf newline file a ∧ (SepFree newline file a stop ∨ stop = a + 1)
  reported : ∀ q e, r.LeftmostOn (lineOf newline file q) q e → (q < stop ∨ last = some q) →
    ∃ m ∈ s.ml, m.IsAt file q e

theorem PcreState.package_regex {found : Nat → Nat → Prop} (hsize : file.length < 2 ^ 31)
    (hlines : LinesSound file found s.lineNo s.prevLineno s.prevLinenoSearchEnd s.ml) {a e : Nat}
    (ha : s.prevLinenoSearchEnd ≤ a) (hae : a ≤ e) (he : e ≤ file.length) (hfree : SepFree newline file a e)
    {I : PcreState → Prop} {Q : ScanResult → Prop}
    (hsame : lineOf newline file a = s.prevLineno →
      I { s with ovector := ⟨a, e⟩, lineNo := lineOf newline file a, prevLinenoSearchEnd := a })
    (hnew : ∀ m, lineOf newline file a ≠ s.prevLineno → m.IsAt file a e →
      I { ovector := ⟨a, e⟩, lineNo := lineOf newline file a, prevLineno := lineOf newline file a,
          prevLinenoSearchEnd := a, ml := s.ml ++ [m] }) :
    (s.package file a e).Holds I Q := by
  have hfit : file.length < 2 ^ 64 := Nat.lt_of_lt_of_le hsize (Nat.pow_le_pow_right (by omega) (by omega))
  have hlen : a ≤ file.length := Nat.le_trans hae he
  unfold PcreState.package
  dsimp only
  rw [toSizeT_natCast (Nat.lt_of_le_of_lt hlen hfit), toSizeT_natCast (Nat.lt_of_le_of_lt he hfit),
    hlines.count_eq ha hlen]
  by_cases hline : lineOf newline file a = s.prevLineno
  · rw [if_pos hline]
    exact hsame hline
  · rw [if_neg hline]
    cases hm : Match.new? file a e (lineOf newline file a) with
    | none => exact ((Match.new?_eq_none_iff hlen he).mp hm hfree).elim
    | some m => exact hnew m hline (Match.isAt_of_new? hlen hm)

theorem pcreScanFileStep_regex (hsize : file.length < 2 ^ 31) {last : Option Nat} {stop : Nat}
    (h : PcreCovered r s last stop) {I : PcreState → Prop} {Q : ScanResult → Prop}
    (hend : stop = file.length → Q ⟨s.ml, .finished⟩)
    (hnone : (∀ q, stop ≤ q → q ≤ file.length → r.matchAt q = none) → Q ⟨s.ml, .finished⟩)
    (hretry : last = some stop → stop < file.length → r.nonEmptyAt stop = none →
      I { s with ovector := ⟨stop, stop + 1⟩ })
    (hagain : ∀ e, last = some stop → r.nonEmptyAt stop = some e → (s.package file stop e).Holds I Q)
    (hfound : ∀ a e, last ≠ some stop → stop ≤ a → r.matchAt a = some e →
      (∀ q, stop ≤ q → q < a → r.matchAt q = none) → (s.package file a e).Holds I Q) :
    (pcreScanFileStep r.pcreExec file s).Holds I Q := by
  unfold pcreScanFileStep
  have hlast := startEntry_eq_iff last stop
  rw [h.ovector, toInt32_of_lt hsize]
  dsimp only
  by_cases hlt : stop < file.length
  · have hne : ¬ (startEntry last = stop ∧
        startEntry last = file.length) := by
      rintro ⟨hstart, hlength⟩
      have : (stop : Int) = file.length := hstart.symm.trans hlength
      omega
    rw [if_pos (by exact_mod_cast hlt), if_neg hne]
    simp only [Regex.pcreExec, PcreState.options, h.ovector, hlast, Int.toNat_natCast]
    by_cases hempty : last = some stop
    · rw [if_pos hempty]
      rcases Regex.pcre2Match_retry (r := r) stop with ⟨e, hrc, he⟩ | ⟨hrc, he⟩
      · rw [hrc]
        exact hagain e hempty he
      · rw [hrc]
        simp only [MatchRc.toPcre, reduceCtorEq, if_false]
        have hstart := hlast.mpr hempty
        simpa only [Outcome.Holds, hstart] using hretry hempty hlt he
    · rw [if_neg hempty]
      rcases Regex.pcre2Match_none (r := r) stop with ⟨a, e, hrc, hle, he, hbefore⟩ | ⟨hrc, hno⟩
      · rw [hrc]
        exact hfound a e hempty hle he hbefore
      · rw [hrc]
        exact hnone hno
  · rw [if_neg (by exact_mod_cast hlt)]
    exact hend (Nat.le_antisymm h.stop_le (Nat.le_of_not_lt hlt))

/-- Twice the bytes that are left, and one more while the next search may match empty. -/
def PcreState.remaining (file : Bytes) (s : PcreState) : Nat :=
  2 * (file.length - s.ovector.stop.toNat) + if s.ovector.start = s.ovector.stop then 0 else 1

def PcreCovers (r : Regex file) (s : PcreState) : Prop := ∃ last stop, PcreCovered r s last stop

theorem pcreCovers_init (r : Regex file) : PcreCovers r {} :=
  ⟨none, 0, rfl, Nat.zero_le _, fun _ => ⟨rfl, rfl⟩, nofun, fun q e _ h => by simp at h⟩

section Step

variable {last : Option Nat} {stop : Nat}

/-- Whichever match is the last one, no later one on its line is the first of the line. -/
theorem PcreCovered.not_leftmostOn (h : PcreCovered r s last stop) {a e : Nat} (hne : last ≠ some a)
    (hle : stop ≤ a) (hline : lineOf newline file a = s.prevLineno) :
    ¬ r.LeftmostOn (lineOf newline file a) a e := by
  intro hleft
  cases hlast : last with
  | none =>
    have := (h.fresh hlast).2
    have := lineOf_pos newline file a
    omega
  | some b =>
    obtain ⟨hb, hmatch, hprev, -⟩ := h.lastMatch b hlast
    have hba : b ≠ a := fun hba => hne (hba ▸ hlast)
    exact hmatch (hleft.leftmost b (by omega) (by omega))

/-- The state behind a match from `a` to `e`, when the first match of every line up to `a` is
reported. -/
theorem PcreCovers.of_found {t : PcreState} {a e : Nat} (hov : t.ovector = ⟨a, e⟩)
    (hae : a ≤ e ∧ e ≤ file.length ∧ SepFree newline file a e) (hmatch : r.matchAt a ≠ none)
    (hline : t.prevLineno = lineOf newline file a)
    (hupto : ∀ q e', q ≤ a → r.LeftmostOn (lineOf newline file q) q e' → ∃ m ∈ t.ml, m.IsAt file q e') :
    PcreCovers r t := by
  refine ⟨some a, e, hov, hae.2.1, nofun, fun b hb => ?_, fun q e' hleft hq => ?_⟩
  · obtain rfl := Option.some.inj hb
    exact ⟨hae.1, hmatch, hline, Or.inl hae.2.2⟩
  · rcases Nat.lt_or_ge a q with hlt | hge
    · have hqe : q < e := by
        rcases hq with h | h
        · exact h
        · have := Option.some.inj h
          omega
      exact (not_leftmostOn_of_sepFree hmatch hlt
        (hae.2.2.mono (Nat.le_refl a) (Nat.le_of_lt hqe)) hleft).elim
    · exact hupto q e' hge hleft

theorem PcreCovered.step (hsize : file.length < 2 ^ 31) (hs : PcreSound r.pcreExec file s)
    (h : PcreCovered r s last stop) :
    (pcreScanFileStep r.pcreExec file s).Holds (PcreCovers r) (fun res => res.exit = .finished ∧
      res.ml = s.ml ∧ (stop = file.length ∨ ∀ q, stop ≤ q → q ≤ file.length → r.matchAt q = none)) := by
  have hsearch : s.prevLinenoSearchEnd ≤ stop := by
    obtain ⟨stop', hstop, hle, -⟩ := hs.cursor
    rw [h.ovector] at hstop
    dsimp only at hstop
    omega
  refine pcreScanFileStep_regex hsize h (fun hend => ⟨rfl, rfl, Or.inl hend⟩)
    (fun hnone => ⟨rfl, rfl, Or.inr hnone⟩) ?_ ?_ ?_
  · intro hlast hlt hnone
    obtain ⟨-, hmatch, hprev, -⟩ := h.lastMatch stop hlast
    refine ⟨last, stop + 1, ?_, hlt, fun hnone => ?_, fun a ha => ?_, fun q e hleft hq => ?_⟩
    · rw [hlast]
      rfl
    · rw [hlast] at hnone
      cases hnone
    · obtain rfl := Option.some.inj (hlast.symm.trans ha)
      exact ⟨Nat.le_succ _, hmatch, hprev, Or.inr rfl⟩
    · refine h.reported q e hleft ?_
      rcases hq with hq | hq
      · rcases Nat.lt_or_eq_of_le (Nat.le_of_lt_succ hq) with hlt | rfl
        · exact Or.inl hlt
        · exact Or.inr hlast
      · exact Or.inr hq
  · intro e hlast he
    obtain ⟨hlt, hlen, hfree⟩ := Regex.nonEmptyAt_bounds he
    obtain ⟨-, hmatch, hprev, -⟩ := h.lastMatch stop hlast
    refine PcreState.package_regex hsize hs.lines hsearch (Nat.le_of_lt hlt) hlen hfree (fun hline => ?_)
      fun m hne => (hne hprev.symm).elim
    refine .of_found rfl ⟨Nat.le_of_lt hlt, hlen, hfree⟩ hmatch hprev fun q e' hq hleft => ?_
    refine h.reported q e' hleft ?_
    rcases Nat.lt_or_eq_of_le hq with hlt | rfl
    · exact Or.inl hlt
    · exact Or.inr hlast
  · intro a e hne hle he hbefore
    have hbounds := Regex.matchAt_bounds he
    have hupto {q e' : Nat} (hq : q < a) (hleft : r.LeftmostOn (lineOf newline file q) q e') :
        ∃ m ∈ s.ml, m.IsAt file q e' := by
      refine h.reported q e' hleft (Or.inl ?_)
      by_contra hge
      have := hbefore q (by omega) hq
      rw [hleft.isMatch] at this
      cases this
    refine PcreState.package_regex hsize hs.lines (Nat.le_trans hsearch hle) hbounds.1 hbounds.2.1
      hbounds.2.2 (fun hline => ?_) fun m hne hat => ?_
    · refine .of_found rfl hbounds (by rw [he]; simp) hline.symm fun q e' hq hleft => ?_
      rcases Nat.lt_or_eq_of_le hq with hlt | rfl
      · exact hupto hlt hleft
      · have hlast : last ≠ some q := by
          rintro hlast
          have := (h.lastMatch q hlast).1
          obtain rfl : q = stop := by omega
          exact hne hlast
        exact (h.not_leftmostOn hlast hle hline hleft).elim
    · refine .of_found rfl hbounds (by rw [he]; simp) rfl fun q e' hq hleft => ?_
      rcases Nat.lt_or_eq_of_le hq with hlt | rfl
      · obtain ⟨m', hm', hat'⟩ := hupto hlt hleft
        exact ⟨m', List.mem_append_left _ hm', hat'⟩
      · obtain rfl := Option.some.inj (he.symm.trans hleft.isMatch)
        exact ⟨m, by simp, hat⟩

theorem PcreCovered.remaining_eq (h : PcreCovered r s last stop) :
    s.remaining file = 2 * (file.length - stop) + if last = some stop then 0 else 1 := by
  simp only [PcreState.remaining, h.ovector, startEntry_eq_iff, Int.toNat_natCast]

theorem PcreCovered.remaining_lt (hsize : file.length < 2 ^ 31) (h : PcreCovered r s last stop) :
    (pcreScanFileStep r.pcreExec file s).Holds (fun t => t.remaining file < s.remaining file)
      (fun _ => True) := by
  have hrem := h.remaining_eq
  have hmoved {a e : Nat} {t : PcreState} (hov : t.ovector = ⟨a, e⟩)
      (hlt : 2 * (file.length - e) + (if a = e then 0 else 1) < s.remaining file) :
      t.remaining file < s.remaining file := by
    simpa only [PcreState.remaining, hov, Int.toNat_natCast, Nat.cast_inj] using hlt
  have hpackage {a e : Nat}
      (hlt : 2 * (file.length - e) + (if a = e then 0 else 1) < s.remaining file) :
      (s.package file a e).Holds (fun t => t.remaining file < s.remaining file) (fun _ => True) :=
    PcreState.package_holds (fun _ _ _ => hmoved rfl hlt) (fun _ _ _ _ _ => hmoved rfl hlt) trivial
  refine pcreScanFileStep_regex hsize h (fun _ => trivial) (fun _ => trivial) ?_ ?_ ?_
  · intro hlast hlt _
    rw [if_pos hlast] at hrem
    refine hmoved (a := stop) (e := stop + 1) rfl ?_
    rw [if_neg (by omega)]
    omega
  · intro e hlast he
    have hbounds := Regex.nonEmptyAt_bounds he
    rw [if_pos hlast] at hrem
    apply hpackage
    rw [if_neg (by omega)]
    omega
  · intro a e hne hle he _
    have hbounds := Regex.matchAt_bounds he
    rw [if_neg hne] at hrem
    apply hpackage
    split <;> omega

end Step

/-- A match behind the newline that ends the file, on a line that the file does not have. -/
def Regex.MatchesBehindEnd (r : Regex file) : Prop :=
  file.getLast? = some newline ∧ r.matchAt file.length ≠ none

theorem PcreCovered.complete {last : Option Nat} {stop : Nat} (h : PcreCovered r s last stop)
    (hend : ¬ r.MatchesBehindEnd) (hfile : file ≠ [])
    (hdone : stop = file.length ∨ ∀ q, stop ≤ q → q ≤ file.length → r.matchAt q = none) {q e : Nat}
    (hq : q ≤ file.length) (hleft : r.LeftmostOn (lineOf newline file q) q e) :
    ∃ m ∈ s.ml, m.IsAt file q e := by
  rcases hdone with rfl | hnone
  · rcases Nat.lt_or_eq_of_le hq with hlt | rfl
    · exact h.reported q e hleft (Or.inl hlt)
    · refine h.reported _ e hleft (Or.inr ?_)
      have hmatch : r.matchAt file.length ≠ none := by simp [hleft.isMatch]
      have hlastByte : file[file.length - 1]? ≠ some newline := by
        rw [← List.getLast?_eq_getElem?]
        exact fun hnl => hend ⟨hnl, hmatch⟩
      have hpos := List.length_pos_iff.mpr hfile
      cases hlast : last with
      | none =>
        have := (h.fresh hlast).1
        omega
      | some a =>
        obtain ⟨hle, ha, -, hnear⟩ := h.lastMatch a hlast
        by_contra hne
        have hlt : a < file.length := by
          rcases Nat.lt_or_eq_of_le hle with hlt | rfl
          · exact hlt
          · exact (hne rfl).elim
        have hfree : SepFree newline file a file.length := by
          rcases hnear with hfree | hnext
          · exact hfree
          · intro i hi hi'
            obtain rfl : i = file.length - 1 := by omega
            exact hlastByte
        exact not_leftmostOn_of_sepFree ha hlt hfree hleft
  · refine h.reported q e hleft (Or.inl ?_)
    by_contra hge
    have := hnone q (by omega) hq
    rw [hleft.isMatch] at this
    cases this

/-- What the loop has gone through when it ends. -/
def PcreEnds (r : Regex file) (res : ScanResult) : Prop :=
  ∃ s last stop, res = ⟨s.ml, .finished⟩ ∧ PcreSound r.pcreExec file s ∧ PcreCovered r s last stop ∧
    (stop = file.length ∨ ∀ q, stop ≤ q → q ≤ file.length → r.matchAt q = none)

theorem pcreScanFile_done (hsize : file.length < 2 ^ 31) :
    ∃ n res, pcreScanFile r.pcreExec file n = .done res ∧ PcreEnds r res := by
  have hstep (s : PcreState) (hs : PcreSound r.pcreExec file s ∧ PcreCovers r s) :
      (pcreScanFileStep r.pcreExec file s).Holds
        (fun t => (PcreSound r.pcreExec file t ∧ PcreCovers r t) ∧ t.remaining file < s.remaining file)
        (PcreEnds r) := by
    obtain ⟨hsound, last, stop, hcov⟩ := hs
    have hsteps := (hsound.step hsize r.pcreExec_inBounds).and
      ((hcov.step hsize hsound).and (hcov.remaining_lt hsize))
    refine hsteps.mono (fun t ht => ⟨⟨ht.1, ht.2.1⟩, ht.2.2⟩) fun res hres => ?_
    obtain ⟨hml, ⟨hexit, -, hend⟩, -⟩ := hres
    refine ⟨s, last, stop, ?_, hsound, hcov, hend⟩
    rw [← hml, ← hexit]
  obtain ⟨res, hdone, hends⟩ :=
    terminates_of_measure (PcreState.remaining file) hstep ⟨pcreSound_init, pcreCovers_init r⟩
  exact ⟨_, res, hdone, hends⟩

theorem PcreSound.matchAt (h : PcreSound r.pcreExec file s) {m : Match} (hm : m ∈ s.ml) :
    ∃ a e, m.IsAt file a e ∧ a ≤ e ∧ e ≤ file.length ∧ r.matchAt a ≠ none := by
  obtain ⟨a, b, ⟨so, options, -, hrc⟩, hab, hb, hat⟩ := h.lines.isAt m hm
  obtain ⟨a', b', hrc', ha, -⟩ := MatchRc.toPcre_eq_found hrc
  obtain rfl : a = a' := by exact_mod_cast ha
  refine ⟨a, b, hat, hab, hb, ?_⟩
  rcases (Regex.pcre2Match_found hrc').2 with h | h
  · simp [h]
  · exact Regex.matchAt_isSome_of_nonEmptyAt h

theorem pcreScanFile_grepLines (hsize : file.length < 2 ^ 31) (hend : ¬ r.MatchesBehindEnd)
    (hfile : file ≠ []) : ∃ n, pcreScanFile r.pcreExec file n = .done ⟨r.grepLines, .finished⟩ := by
  obtain ⟨n, -, hdone, s, last, stop, rfl, hsound, hcov, hstop⟩ := pcreScanFile_done (r := r) hsize
  refine ⟨n, ?_⟩
  rw [hdone, Regex.eq_grepLines hsound.lines.increasing (fun m hm => hsound.matchAt hm) fun q e hq hleft =>
    hcov.complete hend hfile hstop hq hleft]

/-- The older loop has no match that it hides. -/
theorem pcreScanFile_complete (hsize : file.length < 2 ^ 31) :
    ∃ n res, pcreScanFile r.pcreExec file n = .done res ∧ Complete r res.ml := by
  obtain ⟨n, -, hdone, s, last, stop, rfl, hsound, hcov, hstop⟩ := pcreScanFile_done (r := r) hsize
  refine ⟨n, _, hdone, hsound.lines.increasing, fun q e hq hleft => hcov.reported q e hleft (Or.inl ?_)⟩
  rcases hstop with rfl | hnone
  · exact hq
  · by_contra hge
    have := hnone q (by omega) (Nat.le_of_lt hq)
    rw [hleft.isMatch] at this
    cases this

section Agreement

variable {fs : FileScannerPCRE2}

/-- The two scanners report the same matches of a regex, unless the newer one has a match that it
hides. -/
theorem scanners_agree_iff (hsize : file.length < 2 ^ 31) (hend : ¬ r.MatchesBehindEnd)
    (hfs : PassesNoMatch fs r) :
    (∃ n n' ml, fs.scanFile r.pcre2Match file n = .done ⟨ml, .finished⟩ ∧
      pcreScanFile r.pcreExec file n' = .done ⟨ml, .finished⟩) ↔ ¬ r.HidesMatch := by
  constructor
  · rintro ⟨n, n', ml, hdone, hdone'⟩ hhide
    have hplain : ¬ fs.withoutShortcuts.Skips := by simp [FileScannerPCRE2.Skips, FileScannerPCRE2.withoutShortcuts]
    have huse : fs.withoutShortcuts.mUseLiteral = false := hfs.mUseLiteral
    have hmisses := not_reportsEveryLine huse hplain hhide n
    rw [scanFile_passesNoMatch hfs (passesNoMatch_withoutShortcuts hfs.mUseLiteral r) hdone] at hmisses
    obtain ⟨k, res, hpcre, hcomplete⟩ := pcreScanFile_complete (r := r) hsize
    obtain rfl := run_done_unique hdone' hpcre
    exact hmisses hcomplete.reportsEveryLine
  · intro hhide
    by_cases hfile : file = []
    · subst hfile
      exact ⟨1, 1, [], run_succ_done (by simp [FileScannerPCRE2.scanFileStep]) 0,
        run_succ_done (by simp [pcreScanFileStep]) 0⟩
    · obtain ⟨n, hdone⟩ := scanFile_engine_grepLines hfs hhide hfile
      obtain ⟨n', hdone'⟩ := pcreScanFile_grepLines hsize hend hfile
      exact ⟨n, n', _, hdone, hdone'⟩

/-- The regex `b?` on two lines. -/
theorem scanners_agree_iff_two_lines :
    let file : Bytes := [97, 98, 10, 98]
    let r : Regex file := .within fun p => if file[p]? = some 98 then [p + 1, p] else [p]
    let fs := FileScannerPCRE2.analyzed true true false false ⟨none, 0, 0⟩ ⟨[98, 63], by decide⟩
    ∃ n n' ml, fs.scanFile r.pcre2Match file n = .done ⟨ml, .finished⟩ ∧
      pcreScanFile r.pcreExec file n' = .done ⟨ml, .finished⟩ := by
  intro file r fs
  have huse : fs.mUseLiteral = false := by decide
  have hfs : PassesNoMatch fs r := passesNoMatch_withoutShortcuts huse r
  have hhide : ¬ r.HidesMatch := Regex.not_hidesMatch_of_noContinuation (by decide)
  exact (scanners_agree_iff (by decide) (fun h => absurd h.1 (by decide)) hfs).mpr hhide

end Agreement

end Ucg
