import Ucg.ScanInvariant

/-! Every match that a scan loop reports shows the true line number, text and column. -/

namespace Ucg

open Segments Iteration

/-- A list of matches that the engine found, each with its line number and its line cut in
three, in the order of their lines. -/
def SoundReport (file : Bytes) (found : Nat → Nat → Prop) (ml : List Match) : Prop :=
  ml.Pairwise (fun m m' => m.mLineNumber < m'.mLineNumber) ∧
    ∀ m ∈ ml, ∃ s e, found s e ∧
      m.mLineNumber = 1 + (slice file 0 s).count newline ∧
      m.mMatch = slice file s e ∧
      ∃ a b, IsSegment newline file a b ∧ a ≤ s ∧ s ≤ e ∧ e ≤ b ∧
        m.mPreMatch ++ m.mMatch ++ m.mPostMatch = slice file a b ∧
        m.mPreMatch.length + 1 = s - a + 1

theorem LinesSound.report {file : Bytes} {found : Nat → Nat → Prop}
    {lineNo prevLineno searchEnd : Nat} {ml : List Match}
    (h : LinesSound file found lineNo prevLineno searchEnd ml) : SoundReport file found ml := by
  refine ⟨h.increasing, fun m hm => ?_⟩
  obtain ⟨s, e, hfound, hse, -, hat⟩ := h.isAt m hm
  obtain ⟨a, b, hseg, has, heb, hjoin, hlen⟩ := hat.line_eq hse
  refine ⟨s, e, hfound, ?_, hat.matched, a, b, hseg, has, hse, heb, hjoin, by omega⟩
  rw [hat.lineNumber, lineOf, slice, List.drop_zero]

section Pcre

variable {pcreExec : PcreExec} {file : Bytes}

/-- The invariant of the older loop, whose cursor is an `int` that holds a file offset. -/
structure PcreSound (pcreExec : PcreExec) (file : Bytes) (s : PcreState) : Prop where
  lines : LinesSound file
    (fun a b => ∃ (so : Nat) (options : MatchOptions), so ≤ file.length ∧
      pcreExec file.length so options = .found a b)
    s.lineNo s.prevLineno s.prevLinenoSearchEnd s.ml
  cursor : ∃ stop : Nat, s.ovector.stop = stop ∧ s.prevLinenoSearchEnd ≤ stop ∧ stop ≤ file.length

theorem pcreSound_init : PcreSound pcreExec file {} :=
  ⟨linesSound_init file _, 0, rfl, Nat.le_refl 0, Nat.zero_le _⟩

theorem PcreSound.package (hsize : file.length < 2 ^ 31) (hin : pcreExec.InBounds file)
    {s : PcreState} (h : PcreSound pcreExec file s) {a b : Int} {options : MatchOptions}
    (hrc : pcreExec file.length s.ovector.stop options = .found a b) :
    (s.package file a b).Holds (PcreSound pcreExec file) (fun r => r.ml = s.ml) := by
  obtain ⟨stop, hstop, hend, hle⟩ := h.cursor
  rw [hstop] at hrc
  obtain ⟨hsa, hab, hb⟩ := hin stop options a b hle hrc
  -- The offsets are natural numbers, and neither conversion changes them.
  obtain ⟨a, rfl⟩ := Int.eq_ofNat_of_zero_le (show 0 ≤ a by omega)
  obtain ⟨b, rfl⟩ := Int.eq_ofNat_of_zero_le (show 0 ≤ b by omega)
  have hsa : stop ≤ a := by omega
  have hab : a ≤ b := by omega
  have hb : b ≤ file.length := by omega
  have hfit : file.length < 2 ^ 64 := Nat.lt_of_lt_of_le hsize (Nat.pow_le_pow_right (by omega) (by omega))
  have ha64 : toSizeT a = a := toSizeT_natCast (by omega)
  have hb64 : toSizeT b = b := toSizeT_natCast (by omega)
  refine PcreState.package_holds ?_ ?_ rfl
  · rw [ha64]
    intro l hl _
    exact ⟨h.lines.same (Nat.le_trans hend hsa) (Nat.le_trans hab hb) hl, b, rfl, hab, hb⟩
  · rw [ha64, hb64]
    intro l m hl hne hm
    exact ⟨h.lines.new (Nat.le_trans hend hsa) hab hb ⟨stop, options, hle, hrc⟩ hl hne hm, b, rfl,
      hab, hb⟩

theorem PcreSound.step (hsize : file.length < 2 ^ 31) (hin : pcreExec.InBounds file)
    {s : PcreState} (h : PcreSound pcreExec file s) :
    (pcreScanFileStep pcreExec file s).Holds (PcreSound pcreExec file) (fun r => r.ml = s.ml) := by
  unfold pcreScanFileStep
  dsimp only
  rw [toInt32_of_lt hsize]
  split
  · rename_i hlt
    split
    · rfl
    · split
      · split
        · rfl
        · obtain ⟨stop, hstop, hend, hle⟩ := h.cursor
          refine ⟨h.lines, stop + 1, ?_, ?_, by omega⟩
          · dsimp only
            rw [hstop]
            rfl
          · exact Nat.le_succ_of_le hend
      · rfl
      · rfl
      · rename_i a b hrc
        exact h.package hsize hin hrc
  · rfl

end Pcre

/-- Whatever the shortcuts and the engine do, both loops report matches that the engine or
the literal search found, with the right line numbers, lines and columns, in line order. -/
theorem reported_matches_sound :
    (∀ (fs : FileScannerPCRE2) (pcre2Match : Pcre2Match) (file : Bytes) (n : Nat),
      pcre2Match.InBounds file →
      SoundReport file
        (fun s e => ∃ so options, so ≤ file.length ∧
          fs.matchFrom pcre2Match file options so = .found s e)
        (reported (fs.scanFile pcre2Match file n))) ∧
    (∀ (pcreExec : PcreExec) (file : Bytes) (n : Nat), file.length < 2 ^ 31 →
      pcreExec.InBounds file →
      SoundReport file
        (fun s e => ∃ (so : Nat) (options : MatchOptions), so ≤ file.length ∧
          pcreExec file.length so options = .found s e)
        (pcreReported (pcreScanFile pcreExec file n))) := by
  constructor
  · intro fs pcre2Match file n hin
    exact reported_of_invariant (fun s h => h.step hin) (fun s h => h.lines.report)
      FileScannerPCRE2.sound_init n
  · intro pcreExec file n hsize hin
    exact pcreReported_of_invariant (fun s h => h.step hsize hin) (fun s h => h.lines.report)
      pcreSound_init n

theorem reported_matches_sound_second_line :
    let file : Bytes := [10, 97, 98, 10]
    let fs : FileScannerPCRE2 := { sysHasSse42 := true, mIgnoreCase := false, mWordRegexp := false,
                                   mPatternIsLiteral := false }
    let pcre2Match : Pcre2Match := fun so _ => if so ≤ 1 then .found 1 2 else .noMatch
    let pcreExec : PcreExec := fun _ so _ => if so ≤ 1 then .found 1 2 else .noMatch
    SoundReport file
        (fun s e => ∃ so options, so ≤ file.length ∧
          fs.matchFrom pcre2Match file options so = .found s e)
        (reported (fs.scanFile pcre2Match file 4)) ∧
      SoundReport file
        (fun s e => ∃ (so : Nat) (options : MatchOptions), so ≤ file.length ∧
          pcreExec file.length so options = .found s e)
        (pcreReported (pcreScanFile pcreExec file 4)) ∧
      reported (fs.scanFile pcre2Match file 4) = [⟨2, [], [97], [98]⟩] ∧
      pcreReported (pcreScanFile pcreExec file 4) = [⟨2, [], [97], [98]⟩] := by
  intro file fs pcre2Match pcreExec
  refine ⟨reported_matches_sound.1 fs pcre2Match file 4 ?_,
    reported_matches_sound.2 pcreExec file 4 (by decide) ?_, by decide, by decide⟩
  · intro so options a b _ h
    have hle : so ≤ 1 := by
      by_contra hgt
      simp [pcre2Match, hgt] at h
    obtain ⟨rfl, rfl⟩ : 1 = a ∧ 2 = b := by simpa [pcre2Match, hle] using h
    exact ⟨hle, by decide, by decide⟩
  · intro so options a b _ h
    have hle : (so : Int) ≤ 1 := by
      by_contra hgt
      simp only [pcreExec, if_neg hgt] at h
      simp at h
    obtain ⟨rfl, rfl⟩ : 1 = a ∧ 2 = b := by simpa only [pcreExec, if_pos hle, PcreRc.found.injEq] using h
    exact ⟨hle, by decide, by decide⟩

end Ucg
