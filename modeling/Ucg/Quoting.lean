import Ucg.Constructor

/-! The literal text that a regex of quoted spans and ordinary bytes stands for. -/

namespace Ucg

/-- The text of a regex whose unquoted bytes are all ordinary. `\Q` quotes up to the next
`\E` or the end, and an `\E` outside a quoted span is ignored. -/
def plainText (quoted : Bool) : Bytes → Option Bytes
  | [] => some []
  | [c] => if quoted || isPatternLiteral [c] then some [c] else none
  | c :: d :: rest =>
    if c = backslash ∧ d = 69 then plainText false rest
    else if quoted then (plainText true (d :: rest)).map (c :: ·)
    else if c = backslash ∧ d = 81 then plainText true rest
    else if isPatternLiteral [c] then (plainText false (d :: rest)).map (c :: ·)
    else none

theorem infix_quoteEnd_cons {c d : UInt8} {rest : Bytes} (hne : ¬ (c = backslash ∧ d = 69)) :
    quoteEnd <:+: c :: d :: rest ↔ quoteEnd <:+: d :: rest := by
  rw [List.infix_cons_iff]
  refine or_iff_right fun hpre => hne ?_
  simpa [quoteEnd, eq_comm] using hpre

theorem not_infix_quoteEnd_singleton (c : UInt8) : ¬ quoteEnd <:+: [c] := by
  intro h
  have := h.length_le
  simp [quoteEnd] at this

theorem plainText_of_quoted {quoted : Bool} {p : Bytes} (hq : quoted = true)
    (h : ¬ quoteEnd <:+: p) : plainText quoted p = some p := by
  fun_induction plainText quoted p with
  | case1 => rfl
  | case2 quoted c hc => rfl
  | case3 quoted c hc => simp [hq] at hc
  | case4 quoted c d rest hend _ =>
    refine (h ?_).elim
    rw [hend.1, hend.2]
    exact (List.prefix_append quoteEnd rest).isInfix
  | case5 c d rest hend ih =>
    rw [infix_quoteEnd_cons hend] at h
    rw [ih rfl h]
    rfl
  | case6 quoted c d rest hend hquoted => exact (hquoted hq).elim
  | case7 quoted c d rest hend hquoted => exact (hquoted hq).elim
  | case8 quoted c d rest hend hquoted => exact (hquoted hq).elim

theorem plainText_quoted {p : Bytes} (h : ¬ quoteEnd <:+: p) : plainText true p = some p :=
  plainText_of_quoted rfl h

theorem plainText_quoteEnd (quoted : Bool) : plainText quoted quoteEnd = some [] := by
  simp [quoteEnd, plainText]

theorem plainText_append_quoteEnd (quoted : Bool) (p : Bytes) :
    plainText quoted (p ++ quoteEnd) = plainText quoted p := by
  fun_induction plainText quoted p with
  | case1 quoted => exact plainText_quoteEnd quoted
  | case2 quoted c hc =>
    change plainText quoted (c :: backslash :: [69]) = _
    have hend : ∀ q, plainText q (backslash :: [69]) = some [] := plainText_quoteEnd
    rw [plainText, if_neg (by simp [backslash])]
    cases quoted with
    | true => rw [if_pos rfl, hend]; rfl
    | false =>
      rw [if_neg (by simp), if_neg (by simp [backslash]), if_pos (by simpa using hc), hend]
      rfl
  | case3 quoted c hc =>
    change plainText quoted (c :: backslash :: [69]) = _
    rw [Bool.or_eq_true, not_or] at hc
    rw [plainText, if_neg (by simp [backslash]), if_neg hc.1, if_neg (by simp [backslash]),
      if_neg hc.2]
  | case4 quoted c d rest hend ih =>
    rw [List.cons_append, List.cons_append, plainText, if_pos hend, ih]
  | case5 c d rest hend ih =>
    rw [List.cons_append, List.cons_append, plainText, if_neg hend, if_pos rfl, ← ih]
    rfl
  | case6 quoted c d rest hend hquoted hbegin ih =>
    rw [List.cons_append, List.cons_append, plainText, if_neg hend, if_neg hquoted, if_pos hbegin, ih]
  | case7 quoted c d rest hend hquoted hbegin hlit ih =>
    rw [List.cons_append, List.cons_append, plainText, if_neg hend, if_neg hquoted, if_neg hbegin,
      if_pos hlit, ← ih]
    rfl
  | case8 quoted c d rest hend hquoted hbegin hlit =>
    rw [List.cons_append, List.cons_append, plainText, if_neg hend, if_neg hquoted, if_neg hbegin,
      if_neg hlit]

theorem plainText_sublist {quoted : Bool} {regex text : Bytes}
    (h : plainText quoted regex = some text) : text.Sublist regex := by
  fun_induction plainText quoted regex generalizing text with
  | case1 => simp_all
  | case2 => simp_all
  | case3 => simp at h
  | case4 quoted c d rest hend ih => exact ((ih h).cons d).cons c
  | case5 c d rest hend ih =>
    obtain ⟨t, ht, rfl⟩ := Option.map_eq_some_iff.mp h
    exact (ih ht).cons_cons c
  | case6 quoted c d rest hend hquoted hbegin ih => exact ((ih h).cons d).cons c
  | case7 quoted c d rest hend hquoted hbegin hlit ih =>
    obtain ⟨t, ht, rfl⟩ := Option.map_eq_some_iff.mp h
    exact (ih ht).cons_cons c
  | case8 => simp at h

theorem plainText_length_of_quoteEnd {quoted : Bool} {regex text : Bytes}
    (h : plainText quoted regex = some text) (hend : quoteEnd <:+: regex) :
    text.length + 2 ≤ regex.length := by
  fun_induction plainText quoted regex generalizing text with
  | case1 => simp [quoteEnd] at hend
  | case2 quoted c hc => exact (not_infix_quoteEnd_singleton c hend).elim
  | case3 => simp at h
  | case4 quoted c d rest _ _ => exact Nat.succ_le_succ (Nat.succ_le_succ (plainText_sublist h).length_le)
  | case5 c d rest hne ih =>
    obtain ⟨t, ht, rfl⟩ := Option.map_eq_some_iff.mp h
    exact Nat.succ_le_succ (ih ht ((infix_quoteEnd_cons hne).mp hend))
  | case6 quoted c d rest hne hquoted hbegin ih =>
    rw [infix_quoteEnd_cons hne, hbegin.2] at hend
    have hrest : quoteEnd <:+: rest := by
      rcases List.infix_cons_iff.mp hend with hpre | hin
      · simp [quoteEnd, backslash] at hpre
      · exact hin
    have := ih h hrest
    simp only [List.length_cons]
    omega
  | case7 quoted c d rest hne hquoted hbegin hlit ih =>
    obtain ⟨t, ht, rfl⟩ := Option.map_eq_some_iff.mp h
    exact Nat.succ_le_succ (ih ht ((infix_quoteEnd_cons hne).mp hend))
  | case8 => simp at h

theorem plainText_quote (p : Bytes) : plainText false (quoteBegin ++ p ++ quoteEnd) =
    plainText true p := by
  have hbegin : ∀ rest, plainText false (backslash :: 81 :: rest) = plainText true rest := by
    intro rest
    simp [plainText]
  rw [List.append_assoc, quoteBegin, List.cons_append, List.cons_append, List.nil_append, hbegin,
    plainText_append_quoteEnd]

end Ucg
