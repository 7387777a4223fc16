import Ucg.TextSearch

/-! Whether the tables of possible first bytes accept the first byte of every match. -/

namespace Ucg

open FileScannerPCRE2 Simd

/-- What the library promises about first code units. `caseless` says whether it matches the
reported letter caselessly, by an option or by `(?i)`. The bitmap has every first byte. A single
first code unit is the first byte of every match, up to case when that letter is matched
caselessly. -/
structure CompiledRegex.FirstCodeUnit (c : CompiledRegex) (caseless : Prop) : Prop where
  bitmap : ∀ firstBitmap, c.info.firstBitmap = some firstBitmap →
    ∀ file p, (c.regex file).solutions p ≠ [] →
      ∃ b, file[p]? = some b ∧ bitIsSet firstBitmap b.toNat = true
  folded : c.info.firstCodeType = 1 → ∀ file p, (c.regex file).solutions p ≠ [] →
    ∃ b, file[p]? = some b ∧ caseFold true b = caseFold true c.info.firstCodeUnit
  caseful : c.info.firstCodeType = 1 → ¬ caseless →
    ∀ file p, (c.regex file).solutions p ≠ [] → file[p]? = some c.info.firstCodeUnit

/-- The table that the scanner uses accepts the first byte of every match in any file. -/
def TableAccepts (fs : FileScannerPCRE2) (c : CompiledRegex) : Prop :=
  (fs.mUseFirstCodeUnitTable = true → ∀ file p, (c.regex file).solutions p ≠ [] →
    ∃ b, file[p]? = some b ∧ b ∈ fs.mCompiledCuBitmap) ∧
  (fs.mUseRangePairTable = true → ∀ file p, (c.regex file).solutions p ≠ [] →
    ∃ b, file[p]? = some b ∧ inRanges fs.mCompiledRangeBitmap b = true)

/-- The single first code unit is a letter that is matched caselessly. -/
def CompiledRegex.LosesCase (c : CompiledRegex) (caseless : Prop) : Prop :=
  c.info.firstBitmap = none ∧ c.info.firstCodeType = 1 ∧ caseless ∧
    (∃ b, b ≠ c.info.firstCodeUnit ∧ caseFold true b = caseFold true c.info.firstCodeUnit) ∧
    ∃ file p, (c.regex file).solutions p ≠ []

/-- Some match begins with another byte than the single first code unit. -/
def CompiledRegex.BeginsOtherwise (c : CompiledRegex) : Prop :=
  ∃ file p b, (c.regex file).solutions p ≠ [] ∧ file[p]? = some b ∧ b ≠ c.info.firstCodeUnit

variable {c : CompiledRegex} {caseless : Prop} {sse ic wr lit : Bool} {p : Pattern}

theorem tableAccepts_of_bitmap (hc : c.FirstCodeUnit caseless) {firstBitmap : Nat → UInt8}
    (hb : c.info.firstBitmap = some firstBitmap) :
    TableAccepts (analyzed sse ic wr lit c.info p) c := by
  obtain ⟨hcu, hranges⟩ := analyzed_tables_of_bitmap sse ic wr lit p hb
  refine ⟨fun _ file q hq => ?_, fun _ file q hq => ?_⟩
  · obtain ⟨b, hat, hbit⟩ := hc.bitmap firstBitmap hb file q hq
    exact ⟨b, hat, hcu ▸ mem_constructCodeUnitTable.mpr hbit⟩
  · obtain ⟨b, hat, hbit⟩ := hc.bitmap firstBitmap hb file q hq
    refine ⟨b, hat, ?_⟩
    rw [hranges]
    exact inRanges_constructRangePairTable (mem_constructCodeUnitTable.mpr hbit)

/-- Without `ignore_case` the table of a single first code unit has that code unit alone. -/
theorem tableAccepts_single_iff (hb : c.info.firstBitmap = none) (ht : c.info.firstCodeType = 1)
    (hfolded : ∀ file p, (c.regex file).solutions p ≠ [] → ∃ b, file[p]? = some b) :
    TableAccepts (analyzed sse false wr lit c.info p) c ↔ ¬ c.BeginsOtherwise := by
  have huse := analyzed_mUseFirstCodeUnitTable sse wr lit p hb ht
  obtain ⟨-, hcu⟩ := analyzed_mCompiledCuBitmap hb huse
  constructor
  · rintro ⟨haccepts, -⟩ ⟨file, q, b, hq, hat, hne⟩
    obtain ⟨d, hd, hmem⟩ := haccepts huse file q hq
    rw [hcu, List.mem_singleton] at hmem
    exact hne ((Option.some.inj (hat.symm.trans hd)).trans hmem)
  · intro hother
    refine ⟨fun _ file q hq => ?_, fun hrange => ?_⟩
    · obtain ⟨b, hat⟩ := hfolded file q hq
      refine ⟨b, hat, ?_⟩
      rw [hcu, List.mem_singleton]
      by_contra hne
      exact hother ⟨file, q, b, hq, hat, hne⟩
    · rw [analyzed_mUseRangePairTable hb] at hrange
      simp at hrange

theorem tableAccepts_of_keepsCase (hc : c.FirstCodeUnit caseless)
    (hkeeps : ic = true ∨ ¬ c.LosesCase caseless) :
    TableAccepts (analyzed sse ic wr lit c.info p) c := by
  cases hb : c.info.firstBitmap with
  | some firstBitmap => exact tableAccepts_of_bitmap hc hb
  | none =>
    refine ⟨fun huse file q hq => ?_, fun huse => ?_⟩
    · obtain ⟨ht, hcu⟩ := analyzed_mCompiledCuBitmap hb huse
      have hic : ic = false := by
        cases ic with
        | false => rfl
        | true =>
          rw [analyzed_mUseFirstCodeUnitTable_ignoreCase hb] at huse
          simp at huse
      refine ⟨c.info.firstCodeUnit, ?_, by rw [hcu]; exact List.mem_singleton_self _⟩
      by_cases hcaseless : caseless
      · obtain ⟨b, hat, hfold⟩ := hc.folded ht file q hq
        by_cases hbu : b = c.info.firstCodeUnit
        · rw [hat, hbu]
        · rcases hkeeps with htrue | hkeeps
          · simp [hic] at htrue
          · exact absurd ⟨hb, ht, hcaseless, ⟨b, hbu, hfold⟩, file, q, hq⟩ hkeeps
      · exact hc.caseful ht hcaseless file q hq
    · rw [analyzed_mUseRangePairTable hb] at huse
      simp at huse

/-- The first-byte skip discards no match when case is ignored or the regex does not match its
single first letter caselessly by an option of its own. Where it does, the skip discards the
matches in the other case, if the regex has any. -/
theorem tableAccepts_unless_losesCase (hc : c.FirstCodeUnit caseless) :
    (¬ (ic = false ∧ c.LosesCase caseless) → TableAccepts (analyzed sse ic wr lit c.info p) c) ∧
      (ic = false → c.LosesCase caseless →
        (TableAccepts (analyzed sse ic wr lit c.info p) c ↔ ¬ c.BeginsOtherwise)) := by
  constructor
  · intro hcond
    refine tableAccepts_of_keepsCase hc ?_
    cases ic with
    | false => exact Or.inr fun hloses => hcond ⟨rfl, hloses⟩
    | true => exact Or.inl rfl
  · rintro rfl ⟨hb, ht, -⟩
    refine tableAccepts_single_iff hb ht fun file q hq => ?_
    obtain ⟨b, hat, -⟩ := hc.folded ht file q hq
    exact ⟨b, hat⟩

def textCompiled (info : PatternInfo) (ignoreCase : Bool) (text : Bytes) : CompiledRegex :=
  ⟨info, textRegex ignoreCase text⟩

theorem textAt_of_solutions {info : PatternInfo} {text file : Bytes} {q : Nat}
    (h : ((textCompiled info ic text).regex file).solutions q ≠ []) : TextAt ic text file q := by
  by_contra hno
  exact h (if_neg hno)

/-- The regex `abc`, and the regex `(?i)abc` of which one case of the first letter is reported. -/
theorem tableAccepts_unless_losesCase_abc :
    let caseful := textCompiled ⟨none, 1, 97⟩ false [97, 98, 99]
    let caseless := textCompiled ⟨none, 1, 97⟩ true [97, 98, 99]
    TableAccepts (analyzed true false false false caseful.info ⟨[97, 98, 46], by decide⟩) caseful ∧
      (TableAccepts (analyzed true false false false caseless.info
          ⟨[40, 63, 105, 41, 97, 98, 99], by decide⟩) caseless ↔ ¬ caseless.BeginsOtherwise) := by
  intro caseful caseless
  have hcaseful : caseful.FirstCodeUnit False := by
    have hat : ∀ file q, (caseful.regex file).solutions q ≠ [] → file[q]? = some 97 := by
      intro file q hq
      obtain ⟨b, hat, hfold⟩ := (textAt_of_solutions hq).head
      rw [caseFold_false, caseFold_false] at hfold
      rw [hat, hfold]
    exact ⟨fun _ h => by simp [caseful, textCompiled] at h,
      fun _ file q hq => ⟨97, hat file q hq, rfl⟩, fun _ _ => hat⟩
  have hcaseless : caseless.FirstCodeUnit True :=
    ⟨fun _ h => by simp [caseless, textCompiled] at h,
      fun _ file q hq => (textAt_of_solutions hq).head, fun _ h => (h trivial).elim⟩
  exact ⟨(tableAccepts_unless_losesCase hcaseful).1 fun h => h.2.2.2.1,
    (tableAccepts_unless_losesCase hcaseless).2 rfl
      ⟨rfl, rfl, trivial, ⟨65, by decide, by decide⟩, [97, 98, 99], 0, by decide⟩⟩

/-- The regex `(?i)abc`, of which the library reports the first code unit `a` alone. -/
theorem tableAccepts_fails_inline_caseless :
    let c := textCompiled ⟨none, 1, 97⟩ true [97, 98, 99]
    c.FirstCodeUnit True ∧ ¬ TableAccepts
      (analyzed true false false false c.info ⟨[40, 63, 105, 41, 97, 98, 99], by decide⟩) c := by
  intro c
  have hfirst : c.FirstCodeUnit True :=
    ⟨fun _ h => by simp [c, textCompiled] at h, fun _ file q hq => (textAt_of_solutions hq).head,
      fun _ h => (h trivial).elim⟩
  have hother : c.BeginsOtherwise := ⟨[65, 66, 67], 0, 65, by decide, rfl, by decide⟩
  refine ⟨hfirst, fun haccepts => ?_⟩
  refine (tableAccepts_single_iff rfl rfl fun file q hq => ?_).mp haccepts hother
  obtain ⟨b, hat, -⟩ := hfirst.folded rfl file q hq
  exact ⟨b, hat⟩

end Ucg
