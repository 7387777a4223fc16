import Ucg.Completeness
import Ucg.LiteralPath

/-! Searches for a text, byte for byte or up to the case of ASCII letters, and the lines
that contain it. -/

namespace Ucg

open Segments FileScannerPCRE2

def caseFold (ignoreCase : Bool) (c : UInt8) : UInt8 :=
  if ignoreCase = true ∧ 65 ≤ c ∧ c ≤ 90 then c + 32 else c

/-- The bytes at offset `q` are the text, up to case when it is ignored. -/
def TextAt (ignoreCase : Bool) (text file : Bytes) (q : Nat) : Prop :=
  q + text.length ≤ file.length ∧
    (slice file q (q + text.length)).map (caseFold ignoreCase) = text.map (caseFold ignoreCase)

instance (ignoreCase : Bool) (text file : Bytes) (q : Nat) :
    Decidable (TextAt ignoreCase text file q) := inferInstanceAs (Decidable (_ ∧ _))

/-- Line `k` of the file contains the text. -/
def LineContains (ignoreCase : Bool) (text file : Bytes) (k : Nat) : Prop :=
  ∃ a b, IsSegment newline file a b ∧ lineOf newline file a = k ∧
    text.map (caseFold ignoreCase) <:+: (slice file a b).map (caseFold ignoreCase)

/-- The regex matches the text and nothing else. -/
def Regex.MatchesText {file : Bytes} (r : Regex file) (ignoreCase : Bool) (text : Bytes) : Prop :=
  ∀ q, r.solutions q = if TextAt ignoreCase text file q then [q + text.length] else []

def textRegex (ignoreCase : Bool) (text file : Bytes) : Regex file where
  solutions q := if TextAt ignoreCase text file q then [q + text.length] else []
  inSubject := fun {q e} h => by
    split at h
    · rename_i hat
      obtain rfl := List.mem_singleton.mp h
      exact ⟨Nat.le_add_right q _, hat.1⟩
    · simp at h

variable {ic : Bool} {text file : Bytes}

theorem caseFold_eq_newline {c : UInt8} : caseFold ic c = newline ↔ c = newline := by
  unfold caseFold
  split
  · rename_i h
    obtain ⟨-, h₁, h₂⟩ := h
    rw [UInt8.le_iff_toNat_le] at h₁ h₂
    simp only [← UInt8.toNat_inj, UInt8.toNat_add, newline]
    simp at h₁ h₂ ⊢
    omega
  · rfl

theorem caseFold_false (c : UInt8) : caseFold false c = c := by simp [caseFold]

theorem TextAt.sepFree {q : Nat} (hnl : newline ∉ text) (h : TextAt ic text file q) :
    SepFree newline file q (q + text.length) := by
  rw [sepFree_iff_not_mem]
  intro hmem
  have hmap := List.mem_map_of_mem (f := caseFold ic) hmem
  rw [h.2, caseFold_eq_newline.mpr rfl] at hmap
  obtain ⟨c, hc, hfold⟩ := List.mem_map.mp hmap
  exact hnl (caseFold_eq_newline.mp hfold ▸ hc)

theorem TextAt.head {c : UInt8} {cs : Bytes} {q : Nat} (h : TextAt ic (c :: cs) file q) :
    ∃ b, file[q]? = some b ∧ caseFold ic b = caseFold ic c := by
  obtain ⟨hlen, hslice⟩ := h
  have hat : ((slice file q (q + (c :: cs).length)).map (caseFold ic))[0]? =
      some (caseFold ic c) := by rw [hslice]; rfl
  rw [List.getElem?_map, getElem?_slice, if_pos (by simp), Nat.add_zero] at hat
  exact Option.map_eq_some_iff.mp hat

theorem occursAt_iff_textAt {q : Nat} : OccursAt file text q ↔ TextAt false text file q := by
  have hfold : ∀ l : Bytes, l.map (caseFold false) = l := fun l => by
    rw [List.map_congr_left fun c _ => caseFold_false c, List.map_id'']
    exact fun _ => rfl
  rw [TextAt, hfold, hfold]
  constructor
  · intro h
    refine ⟨h.1, List.ext_getElem? fun j => ?_⟩
    rw [getElem?_slice]
    cases hj : text[j]? with
    | none => rw [if_neg (by have := List.getElem?_eq_none_iff.mp hj; omega)]
    | some c => rw [if_pos (by have := (List.getElem?_eq_some_iff.mp hj).1; omega), h.getElem? hj]
  · rintro ⟨hlen, hslice⟩
    refine ⟨hlen, bytesAt_iff.mpr fun j c hc => ?_⟩
    have hj := (List.getElem?_eq_some_iff.mp hc).1
    have hat : (slice file q (q + text.length))[j]? = text[j]? := by rw [hslice]
    rw [getElem?_slice, if_pos (by omega), hc] at hat
    rw [fileMem, List.getD_eq_getElem?_getD, hat, Option.getD_some]

theorem lineContains_iff (hne : text ≠ []) (hnl : newline ∉ text) {k : Nat} :
    LineContains ic text file k ↔ ∃ q < file.length, lineOf newline file q = k ∧ TextAt ic text file q := by
  have hpos := List.length_pos_iff.mpr hne
  constructor
  · rintro ⟨a, b, hseg, hline, pre, post, hsplit⟩
    have hlen : pre.length + text.length + post.length = b - a := by
      have hlen := congrArg List.length hsplit
      rw [List.length_append, List.length_append, List.length_map, List.length_map,
        length_slice hseg.le_length] at hlen
      exact hlen
    have hb := hseg.le_length
    have hab := hseg.le
    have hmid : slice file (a + pre.length) (a + pre.length + text.length) =
        ((slice file a b).drop pre.length).take text.length := by
      apply List.ext_getElem?
      intro j
      rw [getElem?_slice, List.getElem?_take, List.getElem?_drop, getElem?_slice]
      by_cases hj : j < text.length
      · rw [if_pos (by omega), if_pos hj, if_pos (by omega), Nat.add_assoc]
      · rw [if_neg (by omega), if_neg hj]
    refine ⟨a + pre.length, by omega, ?_, by omega, ?_⟩
    · rw [← hline]
      exact ((lineOf_eq_iff (Nat.le_add_right a _)).mpr
        (hseg.free.mono (Nat.le_refl a) (by omega))).symm
    · rw [hmid, List.map_take, List.map_drop, ← hsplit, List.append_assoc, List.drop_left,
        ← List.length_map (caseFold ic), List.take_left]
  · rintro ⟨q, hq, hline, hat⟩
    have hqle := Nat.le_of_lt hq
    obtain ⟨hseg, hstart, hend⟩ := isSegment_lineStart_lineEnd hqle
    have hend : q + text.length ≤ lineEnd file q := by
      by_contra hlt
      exact (lineEnd_lt_iff hqle hat.1).mp (by omega) (hat.sepFree hnl)
    refine ⟨_, _, hseg, ?_, ?_⟩
    · rw [← hline]
      exact (lineOf_eq_iff hstart).mpr (hseg.free.mono (Nat.le_refl _) (by omega))
    · rw [← slice_append hstart (show q ≤ lineEnd file q by omega),
        ← slice_append (Nat.le_add_right q text.length) hend, List.map_append, List.map_append, hat.2,
        ← List.append_assoc]
      exact List.infix_append _ _ _

namespace Regex

variable {r : Regex file}

theorem MatchesText.matchAt_eq (h : r.MatchesText ic text) (hnl : newline ∉ text) (q : Nat) :
    r.matchAt q = if TextAt ic text file q then some (q + text.length) else none := by
  rw [Regex.matchAt, Regex.accepted, h q]
  split
  · rename_i hat
    rw [List.filter_cons_of_pos]
    · rfl
    · rw [beq_iff_eq, calloutHandler_eq_zero]
      exact hat.sepFree hnl
  · rfl

theorem MatchesText.not_hidesMatch (h : r.MatchesText ic text) (hne : text ≠ [])
    (hnl : newline ∉ text) : ¬ r.HidesMatch := by
  rintro ⟨p, q, hp, hmatch, -⟩
  have hpos := List.length_pos_iff.mpr hne
  obtain ⟨e, he⟩ := Option.ne_none_iff_exists'.mp hmatch
  have hpe := matchAt_of_newline hp he
  rw [h.matchAt_eq hnl] at he
  split at he
  · have := Option.some.inj he
    omega
  · simp at he

theorem MatchesText.report (h : r.MatchesText ic text) (hne : text ≠ []) (hnl : newline ∉ text)
    {ml : List Match} (hcomplete : Complete r ml)
    (hfound : ∀ m ∈ ml, ∃ a e, m.IsAt file a e ∧ a ≤ e ∧ e ≤ file.length ∧ r.matchAt a ≠ none) (k : Nat) :
    (∃ m ∈ ml, m.mLineNumber = k) ↔ LineContains ic text file k := by
  rw [lineContains_iff hne hnl]
  have hpos := List.length_pos_iff.mpr hne
  have hiff : ∀ q, r.matchAt q ≠ none ↔ TextAt ic text file q := by
    intro q
    rw [h.matchAt_eq hnl]
    split <;> simp_all
  constructor
  · rintro ⟨m, hm, rfl⟩
    obtain ⟨a, e, hat, -, -, hmatch⟩ := hfound m hm
    have htext := (hiff a).mp hmatch
    have := htext.1
    exact ⟨a, by omega, hat.lineNumber.symm, htext⟩
  · rintro ⟨q, hq, rfl, htext⟩
    obtain ⟨q', e, hleft, hle⟩ := exists_leftmostOn hq ((hiff q).mpr htext)
    obtain ⟨m, hm, hat⟩ := hcomplete.2 q' e (by omega) (hleft.onLine ▸ hleft)
    exact ⟨m, hm, hat.lineNumber.trans hleft.onLine⟩

end Regex

theorem literalRegex_matchesText : (literalRegex text file).MatchesText false text := by
  intro q
  simp only [literalRegex, occursAt_iff_textAt]

theorem scanFile_text_lines {fs : FileScannerPCRE2} {r : Regex file} (huse : fs.mUseLiteral = false)
    (hplain : ¬ fs.Skips) (h : r.MatchesText ic text) (hne : text ≠ []) (hnl : newline ∉ text) :
    ∃ n res, fs.scanFile r.pcre2Match file n = .done res ∧
      ∀ k, (∃ m ∈ res.ml, m.mLineNumber = k) ↔ LineContains ic text file k := by
  obtain ⟨n, res, hdone, hcomplete⟩ := fs.scanFile_complete huse hplain (h.not_hidesMatch hne hnl)
  refine ⟨n, res, hdone, h.report hne hnl hcomplete fun m hm => ?_⟩
  have hfound := scanFile_regex_matchAt (r := r) huse n m
  rw [hdone] at hfound
  exact hfound hm

theorem scanFile_literal_lines {fs : FileScannerPCRE2} {pcre2Match : Pcre2Match}
    (huse : fs.mUseLiteral = true) (hlit : fs.mLiteralSearchString.bytes = text) (hne : text ≠ [])
    (hnl : newline ∉ text) :
    ∃ n res, fs.scanFile pcre2Match file n = .done res ∧
      ∀ k, (∃ m ∈ res.ml, m.mLineNumber = k) ↔ LineContains false text file k := by
  let plain : FileScannerPCRE2 :=
    { fs with mUseLiteral := false, mUseLitPrefix := false, mUseFirstCodeUnitTable := false,
              mUseRangePairTable := false }
  have hplain : ¬ plain.Skips := by simp [plain, Skips]
  obtain ⟨c, hc⟩ : ∃ c, text.head? = some c := by
    cases h : text with
    | nil => exact (hne h).elim
    | cons c cs => exact ⟨c, rfl⟩
  have hfinds : FindsLiteral plain (literalRegex text file).pcre2Match file text :=
    regex_findsLiteral hc rfl rfl rfl (fun h => by simp [plain] at h) (fun _ _ => hnl)
  obtain ⟨n, res, res', hdone, hdone', -, -, hml⟩ :=
    scanFile_same pcre2Match huse hne hlit (fun _ _ => hnl) hfinds
  have huse' : plain.mUseLiteral = false := rfl
  obtain ⟨n', res'', hdone'', hlines⟩ :=
    scanFile_text_lines huse' hplain literalRegex_matchesText hne hnl
  obtain rfl := Iteration.run_done_unique hdone' hdone''
  exact ⟨n, res, hdone, hml ▸ hlines⟩

end Ucg
