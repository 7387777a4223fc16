import Ucg.FirstHit
import Ucg.GrepLines

/-! All shortcuts before the engine together: a scanner as its constructor sets it up passes over no
match when each of its tables fits in one register, and then reports what the engine alone would. -/

namespace Ucg

open FileScannerPCRE2 RegexText Search Segments Simd

section OneRegister

variable {table : Bytes}

/-- The tables that the scanner searches with fit in one register. -/
structure FileScannerPCRE2.OneRegister (fs : FileScannerPCRE2) : Prop where
  codeUnits : fs.mUseFirstCodeUnitTable = true → fs.mCompiledCuBitmap.length ≤ 16
  ranges : fs.mUseRangePairTable = true → fs.mCompiledRangeBitmap.length ≤ 16

theorem eq_of_mem_registers (hsmall : table.length ≤ 16) {register : Bytes}
    (h : register ∈ registers table) : register = table := by
  rw [registers, List.mem_append, List.mem_map] at h
  rcases h with ⟨j, hj, rfl⟩ | h
  · have hj := List.mem_range.mp hj
    obtain rfl : j = 0 := by omega
    exact List.take_of_length_le hsmall
  · split_ifs at h with hpart
    · obtain rfl := List.mem_singleton.mp h
      have hzero : table.length / 16 = 0 := by omega
      rw [hzero]
      rfl
    · cases h

/-- Only the register of the hit itself can come first. -/
theorem hitsFirstAtOnce_of_oneRegister (hsmall : table.length ≤ 16) (hit : Bytes → UInt8 → Bool)
    (mem : Mem) (cbegin len : Nat) : HitsFirstAtOnce hit table mem cbegin len := by
  intro i hi hfirst register hregister
  obtain ⟨register', hregister', hhit⟩ := hfirst.hit hi
  rw [eq_of_mem_registers hsmall (List.mem_of_find?_eq_some hregister)]
  rwa [eq_of_mem_registers hsmall hregister'] at hhit

theorem isFirst_findFirstPossibleCodeUnit (hsmall : table.length ≤ 16) (mem : Mem) (cbegin len : Nat) :
    IsFirst (fun j => mem (cbegin + j) ∈ table) len
      (findFirstPossibleCodeUnitDefault table mem cbegin len) := by
  match table with
  | [] => exact IsFirst.of_none fun j _ => List.not_mem_nil
  | [c] =>
    simp only [List.mem_singleton]
    exact isFirst_find c mem cbegin len
  | c :: d :: rest =>
    have hfirst := tableSearch_isFirst_iff findsFirst_cmpEqualAny (c :: d :: rest) mem cbegin len
    simp only [tableHits_contains] at hfirst
    exact hfirst.mpr (hitsFirstAtOnce_of_oneRegister hsmall _ mem cbegin len)

theorem isFirst_findFirstInRanges (hsmall : table.length ≤ 16) (mem : Mem) (cbegin len : Nat) :
    IsFirst (fun j => inRanges table (mem (cbegin + j)) = true) len
      (findFirstInRanges table mem cbegin len) := by
  have hfirst := tableSearch_isFirst_iff findsFirst_cmpRanges table mem cbegin len
  simp only [tableHits_inRanges] at hfirst
  exact hfirst.mpr (hitsFirstAtOnce_of_oneRegister hsmall _ mem cbegin len)

end OneRegister

section Passes

variable {file : Bytes} {r : Regex file} {fs : FileScannerPCRE2}

/-- A shortcut to the first byte that a match may begin with passes no match. -/
theorem passesNoMatch_of_isFirst {MayBegin : UInt8 → Prop} {search : Nat → Nat}
    (huse : fs.mUseLiteral = false)
    (hskip : ∀ stop, fs.skipAhead file .none stop =
      if stop + search stop ≠ file.length then some (stop + search stop) else none)
    (hsearch : ∀ stop, IsFirst (fun j => MayBegin (fileMem file (stop + j))) (file.length - stop)
      (search stop))
    (hbegins : ∀ q, r.matchAt q ≠ none → ∃ b, file[q]? = some b ∧ MayBegin b) :
    PassesNoMatch fs r := by
  have hpassed : ∀ stop q, stop ≤ q → q < stop + search stop → r.matchAt q = none := by
    intro stop q hle hlt
    by_contra hmatch
    obtain ⟨b, hat, hb⟩ := hbegins q hmatch
    have hmiss := (hsearch stop).before (q - stop) (by omega)
    rw [Nat.add_sub_of_le hle, fileMem, List.getD_eq_getElem?_getD, hat] at hmiss
    exact hmiss hb
  refine ⟨huse, fun stop so hstop hso => ?_, fun stop hstop hnone q hq => ?_⟩
  · rw [hskip] at hso
    split at hso
    · obtain rfl := Option.some.inj hso
      exact ⟨Nat.le_add_right _ _, hpassed stop⟩
    · cases hso
  · rw [hskip] at hnone
    split at hnone
    · cases hnone
    · rename_i hend
      by_contra hmatch
      obtain ⟨b, hat, -⟩ := hbegins q hmatch
      have hlt := (List.getElem?_eq_some_iff.mp hat).1
      exact hmatch (hpassed stop q hq (by omega))

/-- A table of first bytes in one register, or one of ranges, passes no match that begins with a
byte that the table accepts. -/
theorem passesNoMatch_tables (huse : fs.mUseLiteral = false) (hflag : fs.mUseLitPrefix = false)
    (hsmall : fs.OneRegister)
    (hcodeUnits : fs.mUseFirstCodeUnitTable = true → ∀ q, r.matchAt q ≠ none →
      ∃ b, file[q]? = some b ∧ b ∈ fs.mCompiledCuBitmap)
    (hranges : fs.mUseRangePairTable = true → ∀ q, r.matchAt q ≠ none →
      ∃ b, file[q]? = some b ∧ inRanges fs.mCompiledRangeBitmap b = true) :
    PassesNoMatch fs r := by
  by_cases htable : fs.mUseFirstCodeUnitTable = true
  · refine passesNoMatch_of_isFirst huse (fun stop => ?_)
      (fun stop => isFirst_findFirstPossibleCodeUnit (hsmall.codeUnits htable) _ stop _)
      (hcodeUnits htable)
    rw [skipAhead, if_pos ⟨rfl, huse⟩, if_neg (by simp [hflag]), if_pos htable]
  · by_cases hrange : fs.mUseRangePairTable = true
    · refine passesNoMatch_of_isFirst huse (fun stop => ?_)
        (fun stop => isFirst_findFirstInRanges (hsmall.ranges hrange) _ stop _) (hranges hrange)
      rw [skipAhead, if_pos ⟨rfl, huse⟩, if_neg (by simp [hflag]), if_neg htable, if_pos hrange]
    · have hplain : ¬ fs.Skips := by simp [Skips, hflag, htable, hrange]
      refine ⟨huse, fun stop so _ hso => ?_, fun stop _ hnone => ?_⟩
      · rw [skipAhead_plain hplain] at hso
        obtain rfl := Option.some.inj hso
        exact ⟨Nat.le_refl _, fun q hq hlt => absurd hq (Nat.not_le_of_lt hlt)⟩
      · rw [skipAhead_plain hplain] at hnone
        cases hnone

end Passes

section Analyzed

variable {c : CompiledRegex} {caseless : Prop} {r : Re} {p : Pattern} {sse ic wr lit : Bool}

theorem passesNoMatch_analyzed (hr : r.WellFormed) (hc : c.Compiles r) (hp : p.bytes = r.text)
    (hinfo : c.FirstCodeUnit caseless) (hkeeps : ic = true ∨ ¬ c.LosesCase caseless)
    (huse : (analyzed sse ic wr lit c.info p).mUseLiteral = false)
    (hsmall : (analyzed sse ic wr lit c.info p).OneRegister) (file : Bytes) :
    PassesNoMatch (analyzed sse ic wr lit c.info p) (c.regex file) := by
  by_cases hflag : (analyzed sse ic wr lit c.info p).mUseLitPrefix = true
  · obtain ⟨-, -, hlen, hstring, -⟩ := analyzed_of_mUseLitPrefix hflag
    have hbytes : (p.take (getLiteralPrefixLen p.bytes)).bytes =
        r.text.take (getLiteralPrefixLen r.text) := by
      rw [← hp]
      rfl
    rw [hp] at hlen
    refine passesNoMatch_litPrefix huse hflag fun q hq => ?_
    rw [hstring, hbytes]
    exact occursAt_of_begins (literalPrefix_ne_nil hlen)
      (begins_of_solutions hr hc hlen (solutions_of_matchAt hq))
  · obtain ⟨hcodeUnits, hranges⟩ : TableAccepts (analyzed sse ic wr lit c.info p) c :=
      tableAccepts_of_keepsCase hinfo hkeeps
    exact passesNoMatch_tables huse (Bool.eq_false_iff.mpr hflag) hsmall
      (fun htable q hq => hcodeUnits htable file q (solutions_of_matchAt hq))
      (fun hrange q hq => hranges hrange file q (solutions_of_matchAt hq))

/-- Whatever shortcuts the constructor chooses, literal prefix, first byte or ranges: over every file
the scan ends as the one that calls the engine at once does, and where the engine hides no match,
with the lines that have one. -/
theorem shortcuts_invisible (hr : r.WellFormed) (hc : c.Compiles r) (hp : p.bytes = r.text)
    (hinfo : c.FirstCodeUnit caseless) (hkeeps : ic = true ∨ ¬ c.LosesCase caseless)
    (huse : (analyzed sse ic wr lit c.info p).mUseLiteral = false)
    (hsmall : (analyzed sse ic wr lit c.info p).OneRegister) (file : Bytes) :
    ∃ n res, (analyzed sse ic wr lit c.info p).scanFile (c.regex file).pcre2Match file n = .done res ∧
      (analyzed sse ic wr lit c.info p).withoutShortcuts.scanFile (c.regex file).pcre2Match file n =
        .done res ∧
      (file ≠ [] → ¬ (c.regex file).HidesMatch → res = ⟨(c.regex file).grepLines, .finished⟩) := by
  have hpasses := passesNoMatch_analyzed hr hc hp hinfo hkeeps huse hsmall file
  obtain ⟨n, res, hdone⟩ := scanFile_passesNoMatch_done hpasses
  refine ⟨n, res, hdone, ?_, fun hfile hhide => ?_⟩
  · exact scanFile_passesNoMatch hpasses (passesNoMatch_withoutShortcuts huse _) hdone
  · obtain ⟨n', hgrep⟩ := scanFile_engine_grepLines hpasses hhide hfile
    exact Iteration.run_done_unique hdone hgrep

end Analyzed

/-- The regex `[ac]`, with a bitmap of its two bytes. -/
def acClass : CompiledRegex where
  info := ⟨some fun i => if i = 12 then 10 else 0, 0, 0⟩
  regex file := .within fun q => if file[q]? = some 97 ∨ file[q]? = some 99 then [q + 1] else []

theorem acClass_solutions {file : Bytes} {q e : Nat} (h : e ∈ (acClass.regex file).solutions q) :
    (file[q]? = some 97 ∨ file[q]? = some 99) ∧ e = q + 1 := by
  have hmem := (List.mem_filter.mp h).1
  dsimp only at hmem
  split_ifs at hmem with hcond
  · exact ⟨hcond, List.mem_singleton.mp hmem⟩
  · cases hmem

theorem acClass_firstCodeUnit : acClass.FirstCodeUnit False where
  bitmap := by
    rintro firstBitmap hbitmap file q hq
    obtain rfl := Option.some.inj hbitmap
    obtain ⟨e, he⟩ := List.exists_mem_of_ne_nil _ hq
    rcases (acClass_solutions he).1 with hat | hat
    · exact ⟨97, hat, by decide⟩
    · exact ⟨99, hat, by decide⟩
  folded := fun htype => absurd htype (by decide)
  caseful := fun htype => absurd htype (by decide)

theorem shortcuts_invisible_ac :
    let fs := analyzed true false false false acClass.info ⟨[91, 97, 99, 93], by decide⟩
    let file : Bytes := [120, 99, 10, 97]
    fs.mUseFirstCodeUnitTable = true ∧ ∃ n res,
      fs.scanFile (acClass.regex file).pcre2Match file n = .done res ∧
      fs.withoutShortcuts.scanFile (acClass.regex file).pcre2Match file n = .done res ∧
      res = ⟨(acClass.regex file).grepLines, .finished⟩ := by
  intro fs file
  let r : Re := .charClass [97, 99] fun b => b == 97 || b == 99
  have hcompiles : acClass.Compiles r := by
    intro file q e he
    obtain ⟨hat, rfl⟩ := acClass_solutions he
    refine ⟨?_, rfl⟩
    rcases hat with hat | hat
    · exact ⟨97, hat, rfl⟩
    · exact ⟨99, hat, rfl⟩
  have hkeeps : ¬ acClass.LosesCase False := by
    rintro ⟨hnone, -⟩
    cases hnone
  have htable : fs.mUseFirstCodeUnitTable = true ∧ fs.mCompiledCuBitmap.length ≤ 16 ∧
      fs.mUseRangePairTable = false := by decide +kernel
  have huse : fs.mUseLiteral = false := by decide +kernel
  have hsmall : fs.OneRegister := ⟨fun _ => htable.2.1, fun h => by simp [htable.2.2] at h⟩
  have hhide : ¬ (acClass.regex file).HidesMatch := Regex.not_hidesMatch_of_noContinuation (by decide)
  obtain ⟨n, res, hdone, hplain, hlines⟩ := shortcuts_invisible (r := r) trivial hcompiles rfl
    acClass_firstCodeUnit (Or.inr hkeeps) huse hsmall file
  exact ⟨htable.1, n, res, hdone, hplain, hlines (by decide) hhide⟩

end Ucg
