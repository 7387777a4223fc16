import Ucg.FileSelectionOptions
import Ucg.RepeatedDefinitions

/-! `HandleTYPELogic` behind a `--`, which it is to leave alone, and which it never sees. -/

namespace Ucg

open ByteOrder

namespace TypeManager

/-- The body of the loop of `HandleTYPELogic`: the types behind a word, and what the word becomes. -/
def wordStep (tm : TypeManager) (w : Bytes) : Except ArgParseException (TypeManager × Bytes) :=
  match wordAction tm w with
  | .stop | .skip => .ok (tm, w)
  | .rewrite newParam => .ok (tm, newParam)
  | .ambiguous possibilities => .error ⟨possibilities⟩
  | .param p =>
    match tm.applyParam p with
    | .error e => .error ⟨e.what ++ str " while parsing option '" ++ w ++ str "'"⟩
    | .ok tm' => .ok (tm', w)

/-- The loop skips the word, or gets through its definition with the types as they were. -/
def DoesNothing (tm : TypeManager) (w : Bytes) : Prop :=
  wordAction tm w = .skip ∨ ∃ p, wordAction tm w = .param p ∧ tm.applyParam p = .ok tm

variable {tm tm' : TypeManager} {w : Bytes} {front back : List Bytes}

theorem handleTYPELogic_eq (tm : TypeManager) (w : Bytes) (rest : List Bytes) :
    handleTYPELogic tm (w :: rest) = (wordStep tm w).bind fun r =>
      (handleTYPELogic r.1 rest).map fun r' => (r'.1, r.2 :: r'.2) := by
  rw [handleTYPELogic, wordStep]
  cases haction : wordAction tm w with
  | stop => exact (wordAction_ne_stop haction).elim
  | ambiguous possibilities => rfl
  | skip =>
    simp only [Except.bind]
    cases handleTYPELogic tm rest <;> rfl
  | rewrite newParam =>
    simp only [Except.bind]
    cases handleTYPELogic tm rest <;> rfl
  | param p =>
    dsimp only
    cases tm.applyParam p with
    | error e => rfl
    | ok tm₁ =>
      simp only [Except.bind]
      cases handleTYPELogic tm₁ rest <;> rfl

theorem handleTYPELogic_append (tm : TypeManager) (front back : List Bytes) :
    handleTYPELogic tm (front ++ back) = (handleTYPELogic tm front).bind fun r =>
      (handleTYPELogic r.1 back).map fun r' => (r'.1, r.2 ++ r'.2) := by
  induction front generalizing tm with
  | nil =>
    rw [List.nil_append, handleTYPELogic]
    cases hback : handleTYPELogic tm back <;> simp [Except.bind, Except.map, hback]
  | cons w front ih =>
    rw [List.cons_append, handleTYPELogic_eq, handleTYPELogic_eq]
    cases wordStep tm w with
    | error e => rfl
    | ok r =>
      simp only [Except.bind, ih]
      cases handleTYPELogic r.1 front with
      | error e => rfl
      | ok r₁ => cases hback : handleTYPELogic r₁.1 back <;> simp [Except.map, hback]

theorem matchedAction_eq_rewrite {no argtxt newParam : Bytes} {names : List Bytes}
    (h : matchedAction no argtxt names = .rewrite newParam) :
    ∃ X, names = [X] ∧ newParam = str "--type=" ++ no ++ X := by
  rw [matchedAction.eq_def] at h
  split at h
  · cases h
  · exact ⟨_, rfl, (WordAction.rewrite.inj h).symm⟩
  · cases h

theorem wordAction_ne_rewrite_self : wordAction tm w ≠ .rewrite w := by
  -- The new word is longer than a name that the old one matches, or it has another third byte.
  intro h
  obtain ⟨argtxt, hne, rfl⟩ := exists_dashDash_of_wordAction h (by simp)
  rw [wordAction_dashDash hne] at h
  split_ifs at h with hmatch hno
  · obtain ⟨X, hnames, hw⟩ := matchedAction_eq_rewrite h
    have hinfix := (of_mem_getMatchingTypenameList (hnames ▸ List.mem_singleton_self X)).2
    have hle := hinfix.length_le
    have hlength := congrArg List.length hw
    have hdash : dashDash.length = 2 := rfl
    have hparam : (str "--type=").length = 7 := by decide
    simp only [List.length_append, List.length_nil] at hlength
    omega
  · obtain ⟨X, hnames, hw⟩ := matchedAction_eq_rewrite h
    obtain ⟨name, rfl⟩ := hno
    have htake : [45, 45, 110] = [45, 45, (116 : UInt8)] := congrArg (List.take 3) hw
    exact absurd htake (by decide)
  · cases hp : fileTypeParam (split argtxt equalsSign) <;> simp [hp] at h

theorem wordStep_eq_self_iff : wordStep tm w = .ok (tm, w) ↔ tm.DoesNothing w := by
  rw [wordStep, DoesNothing]
  cases haction : wordAction tm w with
  | stop => exact (wordAction_ne_stop haction).elim
  | ambiguous possibilities => simp
  | skip => simp
  | rewrite newParam =>
    have hne : newParam ≠ w := fun heq => wordAction_ne_rewrite_self (heq ▸ haction)
    simp [hne]
  | param p => cases happly : tm.applyParam p <;> simp [happly]

/-- Behind two dashes no type name matches, also not without `no`, and a definition gives the types
what they have. -/
def IsInert (tm : TypeManager) (w : Bytes) : Prop :=
  ∀ argtxt, argtxt ≠ [] → w = dashDash ++ argtxt → tm.getMatchingTypenameList argtxt = [] ∧
    if str "no" <+: argtxt then tm.getMatchingTypenameList (argtxt.drop 2) = []
    else ∀ p, fileTypeParam (split argtxt equalsSign) = some p → tm.ChangesNothing p

theorem matchedAction_eq_skip_iff {no argtxt : Bytes} {names : List Bytes} :
    matchedAction no argtxt names = .skip ↔ names = [] := by
  cases names with
  | nil => simp [matchedAction]
  | cons name rest => cases rest <;> simp [matchedAction]

theorem doesNothing_matched_iff {no argtxt : Bytes} {names : List Bytes}
    (h : wordAction tm w = matchedAction no argtxt names) : tm.DoesNothing w ↔ names = [] := by
  rw [DoesNothing, h, matchedAction_eq_skip_iff, or_iff_left]
  rintro ⟨p, hp, -⟩
  exact matchedAction_ne_param hp

theorem doesNothing_iff_isInert : tm.DoesNothing w ↔ tm.IsInert w := by
  by_cases hform : ∃ argtxt, argtxt ≠ [] ∧ w = dashDash ++ argtxt
  · obtain ⟨argtxt, hne, rfl⟩ := hform
    have hinert : tm.IsInert (dashDash ++ argtxt) ↔ tm.getMatchingTypenameList argtxt = [] ∧
        if str "no" <+: argtxt then tm.getMatchingTypenameList (argtxt.drop 2) = []
        else ∀ p, fileTypeParam (split argtxt equalsSign) = some p → tm.ChangesNothing p := by
      refine ⟨fun h => h argtxt hne rfl, fun h argtxt' _ heq => ?_⟩
      rwa [← List.append_cancel_left heq]
    have haction := @wordAction_dashDash tm argtxt hne
    rw [hinert]
    by_cases hmatch : tm.getMatchingTypenameList argtxt = []
    · rw [if_neg (not_not_intro hmatch)] at haction
      rw [and_iff_right hmatch]
      by_cases hno : str "no" <+: argtxt
      · rw [if_pos hno] at haction
        rw [if_pos hno, doesNothing_matched_iff haction]
      · rw [if_neg hno] at haction
        rw [if_neg hno, DoesNothing, haction]
        cases hp : fileTypeParam (split argtxt equalsSign) with
        | none => simp
        | some p => simp [applyParam_eq_self_iff]
    · rw [if_pos hmatch] at haction
      rw [doesNothing_matched_iff haction, iff_false_intro hmatch, false_and]
  · have hskip : wordAction tm w = .skip := by
      by_contra hne
      exact hform (exists_dashDash_of_wordAction rfl hne)
    exact iff_of_true (Or.inl hskip) fun argtxt hne heq => absurd ⟨argtxt, hne, heq⟩ hform

theorem handleTYPELogic_of_doesNothing {words : List Bytes} (h : ∀ w ∈ words, tm.DoesNothing w) :
    handleTYPELogic tm words = .ok (tm, words) := by
  induction words with
  | nil => rfl
  | cons w rest ih =>
    rw [handleTYPELogic_eq, wordStep_eq_self_iff.mpr (h w List.mem_cons_self)]
    simp only [Except.bind, ih fun w hw => h w (List.mem_cons_of_mem _ hw), Except.map]

theorem handleTYPELogic_dashDash (tm : TypeManager) (rest : List Bytes) :
    handleTYPELogic tm (dashDash :: rest) =
      (handleTYPELogic tm rest).map fun r => (r.1, dashDash :: r.2) := by
  have hskip : wordStep tm dashDash = .ok (tm, dashDash) :=
    wordStep_eq_self_iff.mpr (Or.inl (by rw [wordAction, if_pos (by decide)]))
  rw [handleTYPELogic_eq, hskip]
  rfl

/-- What stands behind the `--` stays as it is, leaves the types as they are and makes nothing fail,
and so does each beginning of it. -/
def LeavesRest (tm : TypeManager) (before rest : List Bytes) : Prop :=
  ∀ front, front <+: rest → handleTYPELogic tm (before ++ dashDash :: front) =
    (handleTYPELogic tm before).map fun r => (r.1, r.2 ++ dashDash :: front)

theorem handleTYPELogic_behind_dashDash {before words front : List Bytes}
    (h : handleTYPELogic tm before = .ok (tm', words)) :
    handleTYPELogic tm (before ++ dashDash :: front) =
      (handleTYPELogic tm before).map (fun r => (r.1, r.2 ++ dashDash :: front)) ↔
        handleTYPELogic tm' front = .ok (tm', front) := by
  rw [handleTYPELogic_append, h]
  simp only [Except.bind, handleTYPELogic_dashDash]
  cases hfront : handleTYPELogic tm' front with
  | error e => simp [Except.map]
  | ok r => simp [Except.map, Prod.ext_iff]

theorem doesNothing_of_prefixes {words : List Bytes}
    (h : ∀ front, front <+: words → handleTYPELogic tm front = .ok (tm, front)) :
    ∀ w ∈ words, tm.DoesNothing w := by
  intro w hw
  obtain ⟨front, back, rfl⟩ := List.append_of_mem hw
  have hfront := h front (List.prefix_append _ _)
  have hword := h (front ++ [w]) ⟨back, by simp⟩
  rw [handleTYPELogic_append, hfront] at hword
  simp only [Except.bind, handleTYPELogic_eq] at hword
  cases hstep : wordStep tm w with
  | error e => simp [hstep, Except.map] at hword
  | ok r =>
    have hsame : r = (tm, w) := by
      simpa [hstep, handleTYPELogic, Except.map, Prod.ext_iff] using hword
    exact wordStep_eq_self_iff.mp (hsame ▸ hstep)

/-- The words behind the first `--` are left alone exactly when each of them is inert with the types
as they are at the `--`. -/
theorem leavesRest_iff (tm : TypeManager) (before rest : List Bytes) :
    LeavesRest tm before rest ↔ ∀ tm' words, handleTYPELogic tm before = .ok (tm', words) →
      ∀ w ∈ rest, tm'.IsInert w := by
  simp only [← doesNothing_iff_isInert]
  constructor
  · intro h tm' words hbefore
    exact doesNothing_of_prefixes fun front hfront =>
      (handleTYPELogic_behind_dashDash hbefore).mp (h front hfront)
  · intro h front hfront
    cases hbefore : handleTYPELogic tm before with
    | error e =>
      rw [handleTYPELogic_append, hbefore]
      rfl
    | ok r =>
      rw [← hbefore]
      exact (handleTYPELogic_behind_dashDash hbefore).mpr
        (handleTYPELogic_of_doesNothing fun w hw => h r.1 r.2 hbefore w (hfront.subset hw))

theorem wordStep_typeAdd_x : wordStep .new (str "--type-add=x") =
    .error ⟨str "Invalid filter specification \"x\" while parsing option '--type-add=x'"⟩ := by
  have haction : wordAction .new (str "--type-add=x") = .param (.typeAdd (str "x")) :=
    wordAction_eq_param_iff.mpr ⟨str "type-add=x", by decide, by decide,
      getMatchingTypenameList_new (by decide), by decide, by decide⟩
  rw [wordStep, haction]
  rfl

/-- `ucg -- --type-add=x` fails. -/
theorem not_leavesRest_typeAdd_x : ¬ LeavesRest .new [str "ucg"] [str "--type-add=x"] := by
  intro h
  have hrest := (handleTYPELogic_behind_dashDash handleTYPELogic_program).mp (h _ List.prefix_rfl)
  rw [handleTYPELogic_eq, wordStep_typeAdd_x] at hrest
  cases hrest

end TypeManager

end Ucg
