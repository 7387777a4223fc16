import Ucg.Lib.Iteration
import Ucg.Lib.Simd
import Ucg.Match

/-! The search for the literal string: `memmem`, its SSE4.2 replacement for short
patterns, and the two versions of `LiteralMatch`. -/

namespace Ucg

open Simd Search Iteration

/-- The pattern argument of the command line. C strings hold no NUL byte. -/
structure Pattern where
  bytes : Bytes
  nulFree : (0 : UInt8) ∉ bytes

/-- What a call of `pcre2_match` or `LiteralMatch` returns. A positive return code comes
with the `ovector` pair. -/
inductive MatchRc
  | noMatch
  | error (rc : Int)
  | ovectorTooSmall
  | found (start stop : Nat)
  deriving DecidableEq, Repr

/-- The file data as `ResizableArray` holds it, with zero bytes behind it. -/
def fileMem (file : Bytes) : Mem := fun i => file.getD i 0

def bytesAt (mem : Mem) (p : Nat) : Bytes → Bool
  | [] => true
  | c :: cs => mem p == c && bytesAt mem (p + 1) cs

def Occurs (mem : Mem) (base memlen : Nat) (pattern : Bytes) (off : Nat) : Prop :=
  off + pattern.length ≤ memlen ∧ bytesAt mem (base + off) pattern = true

def IsLeftmost (mem : Mem) (base memlen : Nat) (pattern : Bytes) : Option Nat → Prop
  | some off => Occurs mem base memlen pattern off ∧ ∀ j < off, ¬ Occurs mem base memlen pattern j
  | none => ∀ j, ¬ Occurs mem base memlen pattern j

def memmem (mem : Mem) (base memlen : Nat) (pattern : Bytes) : Option Nat :=
  if memlen < pattern.length then none
  else (List.range (memlen - pattern.length + 1)).find? fun off => bytesAt mem (base + off) pattern

/-- The part of `memmem_short_pattern` behind its loops, for less than sixteen bytes. -/
def shortPatternTail (mem : Mem) (base memlen : Nat) (pattern : Bytes) (p1 : Nat) : Option Nat :=
  if p1 < memlen then
    let remainingLen := memlen - p1
    if remainingLen < pattern.length then none
    else
      let lastMatch := cmpEqualOrdered pattern (lddqu mem (base + p1)) remainingLen
      if lastMatch ≠ 16 then some (p1 + lastMatch) else none
  else none

/-- One round of the loops of `memmem_short_pattern`. The inner `for` is left either by
its own guard or by a `break` that the `while` answers by entering it again, and both
test the same pointer, so the two run as one loop over `p1`. -/
def shortPatternStep (mem : Mem) (base memlen : Nat) (pattern : Bytes) (p1 : Nat) :
    Outcome Nat (Option Nat) :=
  if p1 < memlen / 16 * 16 then
    let frag1 := lddqu mem (base + p1)
    if (List.range 16).all fun i => ! equalMask (pattern.headD 0) frag1 i then .next (p1 + 16)
    else
      let fsb := cmpEqualOrdered pattern frag1 16
      if fsb < 16 then
        if fsb + pattern.length ≤ 16 then .done (some (p1 + fsb)) else .next (p1 + fsb)
      else .next (p1 + 16)
  else .done (shortPatternTail mem base memlen pattern p1)

def memmemShortPattern (mem : Mem) (base memlen : Nat) (pattern : Bytes) : Option Nat :=
  if memlen < pattern.length ∨ memlen = 0 ∨ pattern.length = 0 then none
  else
    match run (shortPatternStep mem base memlen pattern) (memlen + 1) 0 with
    | .done r => r
    | .next _ => none

def literalMatchOf (startOffset len : Nat) : Option Nat → MatchRc
  | some strMatch => .found (startOffset + strMatch) (startOffset + strMatch + len)
  | none => .noMatch

def literalMatchDefault (mem : Mem) (fileSize startOffset : Nat) (literal : Bytes) : MatchRc :=
  literalMatchOf startOffset literal.length (memmem mem startOffset (fileSize - startOffset) literal)

def literalMatchSse42 (mem : Mem) (fileSize startOffset : Nat) (literal : Bytes) : MatchRc :=
  literalMatchOf startOffset literal.length
    (if literal.length ≤ 16 ∧ 1 ≤ literal.length then
      memmemShortPattern mem startOffset (fileSize - startOffset) literal
    else memmem mem startOffset (fileSize - startOffset) literal)

def resolveLiteralMatch (sysHasSse42 : Bool) : Mem → Nat → Nat → Bytes → MatchRc :=
  if sysHasSse42 then literalMatchSse42 else literalMatchDefault

theorem bytesAt_iff {mem : Mem} {p : Nat} {pattern : Bytes} :
    bytesAt mem p pattern = true ↔ ∀ j c, pattern[j]? = some c → mem (p + j) = c := by
  induction pattern generalizing p with
  | nil => simp [bytesAt]
  | cons x xs ih =>
    simp only [bytesAt, Bool.and_eq_true, beq_iff_eq, ih]
    constructor
    · rintro ⟨hx, hxs⟩ j c hc
      cases j with
      | zero => simpa [hx] using hc
      | succ j => simpa [Nat.add_assoc, Nat.add_comm 1 j] using hxs j c (by simpa using hc)
    · intro h
      refine ⟨by simpa using h 0 x (by simp), fun j c hc => ?_⟩
      simpa [Nat.add_assoc, Nat.add_comm 1 j] using h (j + 1) c (by simpa using hc)

theorem IsLeftmost.unique {mem : Mem} {base memlen : Nat} {pattern : Bytes} {r r' : Option Nat}
    (h : IsLeftmost mem base memlen pattern r) (h' : IsLeftmost mem base memlen pattern r') :
    r = r' := by
  cases r with
  | none =>
    cases r' with
    | none => rfl
    | some i' => exact (h i' h'.1).elim
  | some i =>
    cases r' with
    | none => exact (h' i h.1).elim
    | some i' =>
      rcases Nat.lt_trichotomy i i' with hlt | heq | hgt
      · exact (h'.2 i hlt h.1).elim
      · rw [heq]
      · exact (h.2 i' hgt h'.1).elim

theorem isLeftmost_memmem (mem : Mem) (base memlen : Nat) (pattern : Bytes) :
    IsLeftmost mem base memlen pattern (memmem mem base memlen pattern) := by
  unfold memmem
  split
  · rintro j ⟨hj, -⟩
    omega
  · rename_i hlen
    cases h : (List.range (memlen - pattern.length + 1)).find?
        (fun off => bytesAt mem (base + off) pattern) with
    | none =>
      rintro j ⟨hj, hat⟩
      have := List.find?_range_eq_none.mp h j (by omega)
      simp [hat] at this
    | some i =>
      obtain ⟨hat, hi, hbefore⟩ := List.find?_range_eq_some.mp h
      have hi := List.mem_range.mp hi
      refine ⟨⟨by omega, hat⟩, ?_⟩
      rintro j hj ⟨-, hj'⟩
      simpa [hj'] using hbefore j hj

section ShortPattern

variable {mem : Mem} {base memlen : Nat} {pattern : Bytes}

theorem equalOrderedAt_of_occurs {p1 i lenFrag : Nat} (hlen : 16 ≤ lenFrag ∨ memlen ≤ p1 + lenFrag)
    (h : Occurs mem base memlen pattern (p1 + i)) :
    equalOrderedAt pattern (lddqu mem (base + p1)) lenFrag i = true := by
  rw [equalOrderedAt_iff]
  intro j c hij hc
  have hj := (List.getElem?_eq_some_iff.mp hc).1
  have hat := bytesAt_iff.mp h.2 j c hc
  obtain ⟨hle, -⟩ := h
  exact ⟨by omega, by simpa [lddqu, Nat.add_assoc] using hat⟩

theorem bytesAt_of_equalOrderedAt {p1 i lenFrag : Nat} (hfit : i + pattern.length ≤ 16)
    (h : equalOrderedAt pattern (lddqu mem (base + p1)) lenFrag i = true) :
    bytesAt mem (base + (p1 + i)) pattern = true := by
  rw [bytesAt_iff]
  intro j c hc
  have hj := (List.getElem?_eq_some_iff.mp hc).1
  have hat := (equalOrderedAt_iff.mp h j c (by omega) hc).2
  simpa [lddqu, Nat.add_assoc] using hat

theorem end_le_of_bytesAt {off : Nat} (hnul : (0 : UInt8) ∉ pattern)
    (hzero : ∀ i, memlen ≤ i → i < memlen + 16 → mem (base + i) = 0)
    (hoff : off + pattern.length ≤ memlen + 16) (hat : bytesAt mem (base + off) pattern = true)
    (hne : pattern.length ≠ 0) : off + pattern.length ≤ memlen := by
  by_contra hgt
  have hlast : pattern[pattern.length - 1]? = some pattern[pattern.length - 1] := by simp
  have hmem := bytesAt_iff.mp hat _ _ hlast
  rw [Nat.add_assoc, hzero _ (by omega) (by omega)] at hmem
  exact hnul (hmem ▸ List.getElem_mem _)

theorem shortPatternTail_spec {p1 : Nat} (hlen : 1 ≤ pattern.length)
    (hp1 : memlen / 16 * 16 ≤ p1) (hbefore : ∀ j < p1, ¬ Occurs mem base memlen pattern j) :
    IsLeftmost mem base memlen pattern (shortPatternTail mem base memlen pattern p1) := by
  unfold shortPatternTail
  split
  · rename_i hin
    dsimp only
    split
    · intro j hocc
      exact hbefore j (by have := hocc.1; omega) hocc
    · have hfirst := isFirst_leastSignificant
        (equalOrderedAt pattern (lddqu mem (base + p1)) (memlen - p1))
      change IsFirst _ 16 (cmpEqualOrdered pattern (lddqu mem (base + p1)) (memlen - p1)) at hfirst
      generalize cmpEqualOrdered pattern (lddqu mem (base + p1)) (memlen - p1) = lastMatch at hfirst ⊢
      have hmiss : ∀ j, j < p1 + lastMatch → ¬ Occurs mem base memlen pattern j := by
        intro j hj hocc
        by_cases hjp : j < p1
        · exact hbefore j hjp hocc
        · refine hfirst.before (j - p1) (by omega) ?_
          exact equalOrderedAt_of_occurs (Or.inr (by omega))
            ((show p1 + (j - p1) = j by omega).symm ▸ hocc)
      split
      · have hlt : lastMatch < 16 := by have := hfirst.le; omega
        have hbit := equalOrderedAt_iff.mp (hfirst.hit hlt)
        -- The last pattern byte the register compares is valid, so the whole pattern is.
        have hfit : lastMatch + pattern.length ≤ memlen - p1 := by
          by_contra hgt
          have hj : memlen - p1 - lastMatch < pattern.length := by
            by_cases h : lastMatch ≤ memlen - p1
            · omega
            · have h0 := (hbit 0 pattern[0] (by omega) (by simp)).1
              omega
          have := (hbit (memlen - p1 - lastMatch) _ (by omega)
            (List.getElem?_eq_getElem hj)).1
          omega
        exact ⟨⟨by omega, bytesAt_of_equalOrderedAt (by omega) (hfirst.hit hlt)⟩, hmiss⟩
      · rename_i hnone
        have h16 : lastMatch = 16 := by simpa using hnone
        rintro j hocc
        exact hmiss j (by have := hocc.1; omega) hocc
  · rintro j hocc
    exact hbefore j (by have := hocc.1; omega) hocc

theorem shortPatternStep_spec {p1 : Nat} (hlen : 1 ≤ pattern.length ∧ pattern.length ≤ 16)
    (hnul : (0 : UInt8) ∉ pattern)
    (hzero : ∀ i, memlen ≤ i → i < memlen + 16 → mem (base + i) = 0)
    (hbefore : ∀ j < p1, ¬ Occurs mem base memlen pattern j) :
    (shortPatternStep mem base memlen pattern p1).Holds
      (fun p1' => (∀ j < p1', ¬ Occurs mem base memlen pattern j) ∧ memlen - p1' < memlen - p1)
      (IsLeftmost mem base memlen pattern) := by
  unfold shortPatternStep
  split
  · rename_i hin
    dsimp only
    have hskip : ∀ k, k ≤ 16 →
        (∀ i < k, ¬ equalOrderedAt pattern (lddqu mem (base + p1)) 16 i = true) →
        ∀ j < p1 + k, ¬ Occurs mem base memlen pattern j := by
      intro k _ hk j hj hocc
      by_cases hjp : j < p1
      · exact hbefore j hjp hocc
      · exact hk (j - p1) (by omega) (equalOrderedAt_of_occurs (Or.inl (Nat.le_refl _))
          ((show p1 + (j - p1) = j by omega).symm ▸ hocc))
    split
    · rename_i hprefilter
      refine ⟨hskip 16 (Nat.le_refl _) fun i hi hbit => ?_, by omega⟩
      have hc : pattern[0]? = some (pattern.headD 0) := by
        cases pattern with
        | nil => simp at hlen
        | cons c cs => rfl
      have heq := (equalOrderedAt_iff.mp hbit 0 _ (by omega) hc).2
      have hne := List.all_eq_true.mp hprefilter i (List.mem_range.mpr hi)
      simp [equalMask] at hne
      exact hne (by simpa using heq)
    · have hfirst := isFirst_leastSignificant
        (equalOrderedAt pattern (lddqu mem (base + p1)) 16)
      change IsFirst _ 16 (cmpEqualOrdered pattern (lddqu mem (base + p1)) 16) at hfirst
      generalize cmpEqualOrdered pattern (lddqu mem (base + p1)) 16 = fsb at hfirst ⊢
      have hmiss := hskip fsb hfirst.le hfirst.before
      split
      · rename_i hfsb
        split
        · rename_i hfull
          have hat := bytesAt_of_equalOrderedAt hfull (hfirst.hit hfsb)
          exact ⟨⟨end_le_of_bytesAt hnul hzero (by omega) hat (by omega), hat⟩, hmiss⟩
        · exact ⟨hmiss, by omega⟩
      · exact ⟨fun j hj => hmiss j (by omega), by omega⟩
  · exact shortPatternTail_spec hlen.1 (by omega) hbefore

/-- The SSE4.2 search finds the leftmost occurrence of every short pattern without NUL
bytes, given sixteen zero bytes behind the text. -/
theorem memmemShortPattern_eq (hlen : 1 ≤ pattern.length ∧ pattern.length ≤ 16)
    (hnul : (0 : UInt8) ∉ pattern)
    (hzero : ∀ i, memlen ≤ i → i < memlen + 16 → mem (base + i) = 0) :
    memmemShortPattern mem base memlen pattern = memmem mem base memlen pattern := by
  refine IsLeftmost.unique ?_ (isLeftmost_memmem mem base memlen pattern)
  unfold memmemShortPattern
  split
  · rintro j ⟨hj, -⟩
    omega
  · obtain ⟨r, hr, hleft⟩ := terminates_of_measure (s := 0) (fun p1 => memlen - p1)
      (fun p1 hp1 => shortPatternStep_spec hlen hnul hzero hp1)
      (show ∀ j < 0, ¬ Occurs mem base memlen pattern j from fun j hj => by omega)
    rw [Nat.sub_zero] at hr
    rw [hr]
    exact hleft

end ShortPattern

theorem fileMem_of_ge {file : Bytes} {i : Nat} (h : file.length ≤ i) : fileMem file i = 0 := by
  simp [fileMem, h]

theorem resolveLiteralMatch_eq (sysHasSse42 : Bool) {file literal : Bytes} {startOffset : Nat}
    (hstart : startOffset ≤ file.length) (hnul : (0 : UInt8) ∉ literal) :
    resolveLiteralMatch sysHasSse42 (fileMem file) file.length startOffset literal =
      literalMatchDefault (fileMem file) file.length startOffset literal := by
  cases sysHasSse42 with
  | false => rfl
  | true =>
    simp only [resolveLiteralMatch, if_true, literalMatchSse42, literalMatchDefault]
    split
    · rename_i hlen
      rw [memmemShortPattern_eq ⟨hlen.2, hlen.1⟩ hnul]
      exact fun i hi _ => fileMem_of_ge (by omega)
    · rfl

def OccursAt (file literal : Bytes) (q : Nat) : Prop :=
  q + literal.length ≤ file.length ∧ bytesAt (fileMem file) q literal = true

/-- `LiteralMatch` finds the leftmost occurrence from the start offset on. -/
theorem resolveLiteralMatch_spec (sysHasSse42 : Bool) {file literal : Bytes} {startOffset : Nat}
    (hstart : startOffset ≤ file.length) (hnul : (0 : UInt8) ∉ literal) :
    (∃ s, resolveLiteralMatch sysHasSse42 (fileMem file) file.length startOffset literal =
        .found s (s + literal.length) ∧ startOffset ≤ s ∧ OccursAt file literal s ∧
        ∀ q, startOffset ≤ q → q < s → ¬ OccursAt file literal q) ∨
      (resolveLiteralMatch sysHasSse42 (fileMem file) file.length startOffset literal = .noMatch ∧
        ∀ q, startOffset ≤ q → ¬ OccursAt file literal q) := by
  rw [resolveLiteralMatch_eq sysHasSse42 hstart hnul, literalMatchDefault]
  have hleft := isLeftmost_memmem (fileMem file) startOffset (file.length - startOffset) literal
  have hocc : ∀ q, startOffset ≤ q → OccursAt file literal q →
      Occurs (fileMem file) startOffset (file.length - startOffset) literal (q - startOffset) := by
    rintro q hq ⟨hle, hat⟩
    exact ⟨by omega, by rwa [show startOffset + (q - startOffset) = q by omega]⟩
  cases h : memmem (fileMem file) startOffset (file.length - startOffset) literal with
  | some off =>
    rw [h] at hleft
    obtain ⟨⟨hle, hat⟩, hbefore⟩ := hleft
    left
    refine ⟨startOffset + off, rfl, by omega, ⟨by omega, hat⟩, ?_⟩
    intro q hq hlt hq'
    exact hbefore (q - startOffset) (by omega) (hocc q hq hq')
  | none =>
    rw [h] at hleft
    right
    exact ⟨rfl, fun q hq hq' => hleft _ (hocc q hq hq')⟩

section Engines

/-- The return code of `LiteralMatch`; no match is the code of both libraries for it. -/
def MatchRc.rc : MatchRc → Int
  | .noMatch => -1
  | .error rc => rc
  | .ovectorTooSmall => 0
  | .found _ _ => 1

/-- What `LiteralMatch` leaves in the ovector: without a match the file size, twice. -/
def MatchRc.literalOvector (fileSize : Nat) : MatchRc → Nat × Nat
  | .found start stop => (start, stop)
  | _ => (fileSize, fileSize)

variable {mem : Mem} {file literal : Bytes} {startOffset : Nat}

/-- The file data with sixteen zero bytes behind it, and anything behind those. -/
structure HoldsFile (mem : Mem) (file : Bytes) : Prop where
  bytes : ∀ i, i < file.length → mem i = fileMem file i
  zeroes : ∀ i, file.length ≤ i → i < file.length + 16 → mem i = 0

theorem HoldsFile.occurs_iff (h : HoldsFile mem file) (hstart : startOffset ≤ file.length) {off : Nat} :
    Occurs mem startOffset (file.length - startOffset) literal off ↔
      OccursAt file literal (startOffset + off) := by
  have hsame : off + literal.length ≤ file.length - startOffset →
      (bytesAt mem (startOffset + off) literal = true ↔
        bytesAt (fileMem file) (startOffset + off) literal = true) := by
    intro hle
    simp only [bytesAt_iff]
    refine forall_congr' fun j => forall_congr' fun c => imp_congr_right fun hc => ?_
    have hj := (List.getElem?_eq_some_iff.mp hc).1
    rw [h.bytes _ (by omega)]
  constructor
  · rintro ⟨hle, hat⟩
    exact ⟨by omega, (hsame hle).mp hat⟩
  · rintro ⟨hle, hat⟩
    exact ⟨by omega, (hsame (by omega)).mpr hat⟩

theorem HoldsFile.literalMatchSse42_eq (h : HoldsFile mem file) (hstart : startOffset ≤ file.length)
    (hnul : (0 : UInt8) ∉ literal) :
    literalMatchSse42 mem file.length startOffset literal =
      literalMatchDefault mem file.length startOffset literal := by
  rw [literalMatchSse42, literalMatchDefault]
  by_cases hlen : literal.length ≤ 16 ∧ 1 ≤ literal.length
  · rw [if_pos hlen, memmemShortPattern_eq ⟨hlen.2, hlen.1⟩ hnul]
    exact fun i hi hi' => h.zeroes _ (by omega) (by omega)
  · rw [if_neg hlen]

/-- Both versions of `LiteralMatch` return the same code and leave the same ovector, those of
the leftmost occurrence inside the rest of the file. -/
theorem literalMatch_engines_agree (h : HoldsFile mem file) (hstart : startOffset ≤ file.length)
    (hnul : (0 : UInt8) ∉ literal) :
    let sse42 := literalMatchSse42 mem file.length startOffset literal
    let default := literalMatchDefault mem file.length startOffset literal
    sse42.rc = default.rc ∧
      sse42.literalOvector file.length = default.literalOvector file.length ∧
      ((∃ s, sse42.rc = 1 ∧ sse42.literalOvector file.length = (s, s + literal.length) ∧
          startOffset ≤ s ∧ OccursAt file literal s ∧
          ∀ q, startOffset ≤ q → q < s → ¬ OccursAt file literal q) ∨
        (sse42.rc = -1 ∧ sse42.literalOvector file.length = (file.length, file.length) ∧
          ∀ q, startOffset ≤ q → ¬ OccursAt file literal q)) := by
  dsimp only
  rw [h.literalMatchSse42_eq hstart hnul]
  refine ⟨rfl, rfl, ?_⟩
  have hleft := isLeftmost_memmem mem startOffset (file.length - startOffset) literal
  have hocc : ∀ q, startOffset ≤ q → OccursAt file literal q →
      Occurs mem startOffset (file.length - startOffset) literal (q - startOffset) := by
    intro q hq hocc
    rw [h.occurs_iff hstart, show startOffset + (q - startOffset) = q by omega]
    exact hocc
  rw [literalMatchDefault]
  cases hmem : memmem mem startOffset (file.length - startOffset) literal with
  | some off =>
    rw [hmem] at hleft
    refine Or.inl ⟨startOffset + off, rfl, rfl, by omega, (h.occurs_iff hstart).mp hleft.1, ?_⟩
    intro q hq hlt hq'
    exact hleft.2 (q - startOffset) (by omega) (hocc q hq hq')
  | none =>
    rw [hmem] at hleft
    exact Or.inr ⟨rfl, rfl, fun q hq hq' => hleft _ (hocc q hq hq')⟩

theorem literalMatch_engines_agree_ab :
    let file : Bytes := [97, 97, 98, 99]
    let mem : Mem := fun i => if i < 20 then fileMem file i else 7
    (literalMatchSse42 mem 4 0 [97, 98]).literalOvector 4 =
      (literalMatchDefault mem 4 0 [97, 98]).literalOvector 4 := by
  have hfile : HoldsFile (fun i => if i < 20 then fileMem [97, 97, 98, 99] i else 7)
      [97, 97, 98, 99] := by
    refine ⟨fun i hi => if_pos (Nat.lt_of_lt_of_le hi (by decide)), fun i hi hi' => ?_⟩
    have hlt : i < 20 := hi'
    rw [if_pos hlt]
    exact fileMem_of_ge hi
  exact (literalMatch_engines_agree hfile (Nat.zero_le _) (by decide)).2.1

end Engines

end Ucg
