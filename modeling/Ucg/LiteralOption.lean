import Ucg.Quoting
import Ucg.TextSearch

/-! The lines that a scanner constructed with `--literal` reports. -/

namespace Ucg

open Segments FileScannerPCRE2

/-- What the library promises about regexes of quoted spans and ordinary bytes, in the
callout wrapper, whose lookahead for the end of the line always succeeds: they compile with
a single first code unit or none, and match their text. -/
def Pcre2Compile.Quotes (pcre2Compile : Pcre2Compile) : Prop :=
  ∀ regex text ignoreCase, plainText false regex = some text →
    ∃ code, pcre2Compile (addCallout regex) ignoreCase = some code ∧ code.Accepted ∧
      code.compiled.info.firstBitmap = none ∧
      ∀ file, (code.compiled.regex file).MatchesText ignoreCase text

/-- The constructor accepts the pattern for `--literal`, and in every file the scan ends
and reports exactly the lines that contain the pattern. -/
def LiteralLines (pcre2Compile : Pcre2Compile) (sysHasSse42 : Bool) (p : Pattern)
    (ignoreCase : Bool) : Prop :=
  ∃ scanner, new? pcre2Compile sysHasSse42 p ignoreCase false true = some scanner ∧
    ∀ file, ∃ n res, scan scanner file n = .done res ∧
      ∀ k, (∃ m ∈ res.ml, m.mLineNumber = k) ↔ LineContains ignoreCase p.bytes file k

theorem wrapRegex_literal (p : Bytes) :
    wrapRegex p false true = addCallout (quoteBegin ++ p ++ quoteEnd) := by
  simp [wrapRegex]

section Works

variable {pcre2Compile : Pcre2Compile} {sse ic : Bool} {p : Pattern}

theorem literalLines_of_caseful (hne : p.bytes ≠ []) (hnl : newline ∉ p.bytes)
    (haccept : pcre2Compile.Accepts (wrapRegex p.bytes false true) false) :
    LiteralLines pcre2Compile sse p false := by
  obtain ⟨code, hcode, haccepted⟩ := haccept
  have huse : (analyzed sse false false true code.compiled.info p).mUseLiteral = true :=
    analyzed_mUseLiteral.mpr ⟨rfl, rfl, Or.inl rfl⟩
  have hsearch := congrArg Pattern.bytes (analyzed_mLiteralSearchString huse)
  exact ⟨_, new?_of_accepted hcode haccepted, fun file =>
    scanFile_literal_lines huse hsearch hne hnl⟩

theorem literalLines_of_quoted (hquotes : pcre2Compile.Quotes) (hne : p.bytes ≠ [])
    (hnl : newline ∉ p.bytes) (hend : ¬ quoteEnd <:+: p.bytes) :
    LiteralLines pcre2Compile sse p ic := by
  have htext : plainText false (quoteBegin ++ p.bytes ++ quoteEnd) = some p.bytes := by
    rw [plainText_quote, plainText_quoted hend]
  obtain ⟨code, hcode, haccepted, hbitmap, hmatches⟩ := hquotes _ _ ic htext
  rw [← wrapRegex_literal] at hcode
  cases ic with
  | false => exact literalLines_of_caseful hne hnl ⟨code, hcode, haccepted⟩
  | true =>
    have huse : (analyzed sse true false true code.compiled.info p).mUseLiteral = false := by
      rw [← Bool.not_eq_true, analyzed_mUseLiteral]
      simp
    have hplain : ¬ (analyzed sse true false true code.compiled.info p).Skips := by
      rintro (h | h | h)
      · rw [analyzed_mUseLitPrefix_ignoreCase] at h
        simp at h
      · rw [analyzed_mUseFirstCodeUnitTable_ignoreCase hbitmap] at h
        simp at h
      · rw [analyzed_mUseRangePairTable hbitmap] at h
        simp at h
    exact ⟨_, new?_of_accepted hcode haccepted, fun file =>
      scanFile_text_lines huse hplain (hmatches file) hne hnl⟩

end Works

section Fails

def removeCallout (regex : Bytes) : Bytes :=
  (regex.drop calloutPrefix.length).take
    (regex.length - (calloutPrefix.length + calloutSuffix.length))

theorem removeCallout_addCallout (regex : Bytes) : removeCallout (addCallout regex) = regex := by
  rw [removeCallout, addCallout, List.append_assoc, List.drop_left]
  simp only [List.length_append]
  rw [show calloutPrefix.length + (regex.length + calloutSuffix.length) -
    (calloutPrefix.length + calloutSuffix.length) = regex.length by omega, List.take_left]

def neverRegex (file : Bytes) : Regex file := ⟨fun _ => [], fun h => by simp at h⟩

/-- A library that accepts the given regexes, reads quoted spans and ordinary bytes as it
should, and finds nothing with any other regex. -/
def plainCompile (accepts : Bytes → Bool → Bool) : Pcre2Compile := fun regex ignoreCase =>
  if accepts regex ignoreCase then
    some {
      compiled := {
        info := ⟨none, 0, 0⟩
        regex := fun file =>
          match plainText false (removeCallout regex) with
          | some text => textRegex ignoreCase text file
          | none => neverRegex file }
      jitRetval := .ok
      numCallouts := 1 }
  else none

variable {accepts : Bytes → Bool → Bool} {sse : Bool} {p : Pattern}

theorem plainCompile_accepts {regex : Bytes} {ic : Bool} :
    (plainCompile accepts).Accepts regex ic ↔ accepts regex ic = true := by
  unfold Pcre2Compile.Accepts plainCompile
  split <;> simp_all [Pcre2Code.Accepted]

theorem plainCompile_quotes
    (hplain : ∀ regex ic, (plainText false regex).isSome = true → accepts (addCallout regex) ic = true) :
    (plainCompile accepts).Quotes := by
  intro regex text ic htext
  refine ⟨_, if_pos (hplain regex ic (by simp [htext])), ⟨by simp, Nat.le_refl 1⟩, rfl,
    fun file q => ?_⟩
  simp only [removeCallout_addCallout, htext]
  rfl

theorem not_hidesMatch_last {text : Bytes} (hnl : newline ∉ text) {r : Regex (text ++ [newline])} :
    ¬ r.HidesMatch := by
  rintro ⟨a, b, hat, -, hab, hb, -⟩
  have ha : text.length ≤ a := by
    by_contra hlt
    rw [List.getElem?_append_left (by omega)] at hat
    exact hnl (List.mem_of_getElem? hat)
  rw [List.length_append, List.length_singleton] at hb
  omega

theorem not_reported_neverRegex {fs : FileScannerPCRE2} {file : Bytes} {n : Nat} {res : ScanResult}
    (huse : fs.mUseLiteral = false)
    (hdone : fs.scanFile (neverRegex file).pcre2Match file n = .done res) (m : Match) : m ∉ res.ml := by
  intro hm
  have hfound := scanFile_regex_matchAt (r := neverRegex file) huse n m
  rw [hdone] at hfound
  obtain ⟨a, e, -, -, -, hmatch⟩ := hfound hm
  exact hmatch rfl

theorem exists_reported_textRegex {fs : FileScannerPCRE2} {text : Bytes} {n : Nat} {res : ScanResult}
    (huse : fs.mUseLiteral = false) (hplain : ¬ fs.Skips) (hnl : newline ∉ text)
    (hdone : fs.scanFile (textRegex true text (text ++ [newline])).pcre2Match (text ++ [newline]) n =
      .done res) : ∃ m, m ∈ res.ml := by
  obtain ⟨n', res', hdone', hcomplete⟩ :=
    scanFile_complete (r := textRegex true text (text ++ [newline])) huse hplain
      (not_hidesMatch_last hnl)
  obtain rfl := Iteration.run_done_unique hdone hdone'
  have hmatch : (textRegex true text (text ++ [newline])).matchAt 0 ≠ none := by
    rw [Regex.MatchesText.matchAt_eq (fun _ => rfl) hnl, if_pos ⟨by simp, by simp [slice]⟩]
    simp
  obtain ⟨q, e, hleft, hle⟩ := Regex.exists_leftmostOn (by simp) hmatch
  obtain ⟨m, hm, -⟩ := hcomplete.2 q e (by simp; omega) (hleft.onLine ▸ hleft)
  exact ⟨m, hm⟩

theorem not_literalLines_of_quoteEnd (hnl : newline ∉ p.bytes) (hend : quoteEnd <:+: p.bytes) :
    ¬ LiteralLines (plainCompile accepts) sse p true := by
  have hne : p.bytes ≠ [] := by
    rintro h
    rw [h] at hend
    simp [quoteEnd] at hend
  rintro ⟨scanner, hnew, hlines⟩
  obtain ⟨code, hcode, haccepted⟩ := new?_isSome_iff.mp (Option.isSome_of_eq_some hnew)
  rw [new?_of_accepted hcode haccepted] at hnew
  obtain rfl := Option.some.inj hnew
  rw [wrapRegex_literal] at hcode
  unfold plainCompile at hcode
  split at hcode
  · obtain rfl := Option.some.inj hcode
    have huse : (analyzed sse true false true ⟨none, 0, 0⟩ p).mUseLiteral = false := by
      rw [← Bool.not_eq_true, analyzed_mUseLiteral]
      simp
    have hplain : ¬ (analyzed sse true false true ⟨none, 0, 0⟩ p).Skips := fun h => by
      have := analyzed_skips h
      simp at this
    simp only [removeCallout_addCallout] at hlines
    cases htext : plainText false (quoteBegin ++ p.bytes ++ quoteEnd) with
    | none =>
      -- The line that is the pattern is not found.
      obtain ⟨n, res, hdone, hres⟩ := hlines p.bytes
      simp only [scan, htext] at hdone
      have hpos := List.length_pos_iff.mpr hne
      have hcontains : LineContains true p.bytes p.bytes (lineOf newline p.bytes 0) := by
        rw [lineContains_iff hne hnl]
        exact ⟨0, hpos, rfl, by simp, by simp [slice]⟩
      obtain ⟨m, hm, -⟩ := (hres _).mpr hcontains
      exact not_reported_neverRegex huse hdone m hm
    | some text =>
      -- The line that is the shorter text is found, and the file has no room for the pattern.
      rw [plainText_quote] at htext
      have hshort := plainText_length_of_quoteEnd htext hend
      have hnl' : newline ∉ text := fun h => hnl ((plainText_sublist htext).subset h)
      obtain ⟨n, res, hdone, hres⟩ := hlines (text ++ [newline])
      simp only [scan, plainText_quote, htext] at hdone
      obtain ⟨m, hm⟩ := exists_reported_textRegex huse hplain hnl' hdone
      have hcontains := (hres _).mp ⟨m, hm, rfl⟩
      rw [lineContains_iff hne hnl] at hcontains
      obtain ⟨q', -, -, hlen, -⟩ := hcontains
      rw [List.length_append, List.length_singleton] at hlen
      omega
  · simp at hcode

end Fails

/-- `--literal` means literal for every library that reads quotations as it should, exactly
when the pattern has no `\E`, or case counts and the library accepts the wrapped regex. -/
theorem literalLines_iff {accepts : Bytes → Bool → Bool}
    (hplain : ∀ regex ic, (plainText false regex).isSome = true → accepts (addCallout regex) ic = true)
    {sse ic : Bool} {p : Pattern} (hne : p.bytes ≠ []) (hnl : newline ∉ p.bytes) :
    (∀ pcre2Compile : Pcre2Compile, pcre2Compile.Quotes →
      (∀ regex ic, pcre2Compile.Accepts regex ic ↔ accepts regex ic = true) →
      LiteralLines pcre2Compile sse p ic) ↔
    (¬ quoteEnd <:+: p.bytes ∨ ic = false ∧ accepts (wrapRegex p.bytes false true) ic = true) := by
  constructor
  · intro h
    have hlines := h (plainCompile accepts) (plainCompile_quotes hplain) (fun _ _ => plainCompile_accepts)
    by_contra hcond
    simp only [not_or, not_not, not_and] at hcond
    obtain ⟨hend, hcond⟩ := hcond
    cases ic with
    | true => exact not_literalLines_of_quoteEnd hnl hend hlines
    | false =>
      obtain ⟨scanner, hnew, -⟩ := hlines
      exact hcond rfl (plainCompile_accepts.mp (new?_isSome_iff.mp (Option.isSome_of_eq_some hnew)))
  · intro hcond pcre2Compile hquotes haccepts
    rcases hcond with hend | ⟨rfl, haccept⟩
    · exact literalLines_of_quoted hquotes hne hnl hend
    · exact literalLines_of_caseful hne hnl ((haccepts _ _).mpr haccept)

theorem literalLines_iff_dot :
    LiteralLines (plainCompile fun _ _ => true) true ⟨[97, 46, 98], by decide⟩ true := by
  let accepts : Bytes → Bool → Bool := fun _ _ => true
  have hplain : ∀ regex ic, (plainText false regex).isSome = true →
      accepts (addCallout regex) ic = true := fun _ _ _ => rfl
  have hquotes : (plainCompile accepts).Quotes := plainCompile_quotes hplain
  exact (literalLines_iff hplain (by decide) (by decide)).mpr (Or.inl (by decide)) _ hquotes
    fun _ _ => plainCompile_accepts

/-- The pattern `a\Eb` with case folding, for a library that keeps its promises. -/
theorem literalLines_fails_quoteEnd :
    (plainCompile fun _ _ => true).Quotes ∧
      ¬ LiteralLines (plainCompile fun _ _ => true) true ⟨[97, 92, 69, 98], by decide⟩ true :=
  ⟨plainCompile_quotes (fun _ _ _ => rfl), not_literalLines_of_quoteEnd (by decide) (by decide)⟩

end Ucg
