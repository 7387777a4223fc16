import Ucg.TypeWords

/-! The options that `HandleTYPELogic` acts on and the option parser only accepts: which of
their spellings both of them understand. -/

namespace Ucg

open ByteOrder

/-- The operation of `TypeManager` that an option stands for. -/
def selectionParam : OptIndex → Option (Bytes → FileTypeParam)
  | .typeAdd => some .typeAdd
  | .typeSet => some .typeSet
  | .typeDel => some .typeDel
  | .ignoreFile => some .ignoreFile
  | .exclude => some .exclude
  | .include => some .include
  | _ => none

def selectionNames : List (Bytes × OptIndex) :=
  [(str "type-add", .typeAdd), (str "type-set", .typeSet), (str "type-del", .typeDel),
    (str "ignore-file", .ignoreFile), (str "exclude", .exclude), (str "ignore", .exclude),
    (str "include", .include)]

section Names

variable {d : Descriptor OptIndex} {op : Bytes → FileTypeParam} {n B : Bytes}

theorem find_selectionNames : ∀ e ∈ selectionNames,
    (findLongOption dynamicUsage e.1).map (·.index) = some e.2 := by
  decide

theorem longopt_of_selectionParam : ∀ d ∈ dynamicUsage, (selectionParam d.index).isSome →
    d.shortopt = [] ∧ d.longopt ≠ [] ∧ d.longopt.head? ≠ some 110 := by
  decide

theorem checkArg_of_selectionParam : ∀ ro ∈ rawOptions, (selectionParam ro.index).isSome →
    ro.checkArg = Arg.NonEmpty := by
  intro ro hro hselects
  rw [checkArg_eq_indexCheck ro hro]
  cases hindex : ro.index with
  | typeAdd | typeSet | typeDel | ignoreFile | exclude | «include» => rfl
  | _ => simp [hindex, selectionParam] at hselects

theorem fileTypeParam_of_mem {i : OptIndex} (h : (n, i) ∈ selectionNames)
    (hop : selectionParam i = some op) (B : Bytes) : fileTypeParam [n, B] = some (op B) := by
  simp only [selectionNames, List.mem_cons, Prod.mk.injEq, List.not_mem_nil, or_false] at h
  rcases h with ⟨rfl, rfl⟩ | ⟨rfl, rfl⟩ | ⟨rfl, rfl⟩ | ⟨rfl, rfl⟩ | ⟨rfl, rfl⟩ | ⟨rfl, rfl⟩ |
    ⟨rfl, rfl⟩ <;> obtain rfl := Option.some.inj hop <;> rfl

theorem mem_of_fileTypeParam {p : FileTypeParam} (h : fileTypeParam [n, B] = some p) :
    n ∈ selectionNames.map (·.1) := by
  simp only [selectionNames, List.map_cons, List.map_nil, List.mem_cons, List.not_mem_nil, or_false]
  rw [fileTypeParam] at h
  split_ifs at h <;> tauto

end Names

namespace TypeManager

variable {tm : TypeManager} {w A : Bytes} {next : Option Bytes} {usesNext : Bool}
  {opts : List (ParsedOption OptIndex)} {o : ParsedOption OptIndex} {op : Bytes → FileTypeParam}

/-- Where the parser finds one of the options: behind two dashes, under its name or an
abbreviation of it. -/
theorem of_selection (hread : parseOptionWord dynamicUsage w next = some (opts, usesNext))
    (ho : o ∈ opts) (hop : selectionParam o.index = some op) (harg : o.arg = some A) :
    A ≠ [] ∧ ∃ n d, equalsSign ∉ n ∧ n ≠ [] ∧ n.head? ≠ some 110 ∧
      findLongOption dynamicUsage n = some d ∧ d.index = o.index ∧
      (w = dashDash ++ (n ++ equalsSign :: A) ∨ w = dashDash ++ n ∧ next = some A) := by
  have hselects : ∀ d : Descriptor OptIndex, d.Gives o → (selectionParam d.index).isSome :=
    fun d hgives => by rw [hgives.1, hop]; rfl
  rw [parseOptionWord] at hread
  split at hread
  · rename_i hdash
    obtain ⟨argtxt, rfl⟩ := hdash
    have hdrop : (dashDash ++ argtxt).drop 2 = argtxt := rfl
    rw [hdrop] at hread
    obtain ⟨d, hd, hgives⟩ := gives_of_parseLongOption hread ho
    have hmem := mem_of_longOption hd
    obtain ⟨-, hlongopt, hhead⟩ := longopt_of_selectionParam d hmem (hselects d hgives)
    have hfind : findLongOption dynamicUsage argtxt = some d := by
      rcases Option.or_eq_some_iff.mp hd with hd | ⟨-, hd⟩
      · exact hd
      · have hdummy := List.find?_some hd
        exact (hlongopt (of_decide_eq_true hdummy).2).elim
    have hname : equalsSign ∉ argtxt.takeWhile (· ≠ equalsSign) := delimiter_not_mem_takeWhile
    rw [← findLongOption_takeWhile equalsSign_not_mem_longopt] at hfind
    obtain ⟨hpre, hnil⟩ := prefix_of_findLongOption hname hfind
    have hA : A ≠ [] := by
      obtain ⟨ro, hro, hroindex, hrocheck⟩ := exists_rawOption hmem
      have hcheck := checkArg_of_selectionParam ro hro (hroindex ▸ hselects d hgives)
      rcases hgives.2.2 with hok | ⟨hnone, -⟩
      · rw [hrocheck, hcheck, harg] at hok
        rintro rfl
        simp [Arg.NonEmpty] at hok
      · simp [harg] at hnone
    have hne : argtxt.takeWhile (· ≠ equalsSign) ≠ [] := fun h => hlongopt (hnil h)
    refine ⟨hA, _, d, hname, hne, ?_, hfind, hgives.1, ?_⟩
    · obtain ⟨rest, hrest⟩ := hpre
      rwa [← hrest, List.head?_append_of_ne_nil _ hne] at hhead
    · rcases arg_of_parseLongOption hread ho harg with hattached | ⟨hfree, hnext⟩
      · exact Or.inl (congrArg (dashDash ++ ·) hattached)
      · have htake : argtxt.takeWhile (· ≠ equalsSign) = argtxt :=
          List.takeWhile_eq_self_iff.mpr fun c hc =>
            decide_eq_true (ne_of_mem_of_not_mem hc hfree)
        exact Or.inr ⟨by rw [htake], hnext⟩
  · obtain ⟨d, hmem, hshort, hgives⟩ := gives_of_parseShortOptions hread ho
    obtain ⟨hshortopt, hlongopt, -⟩ := longopt_of_selectionParam d hmem (hselects d hgives)
    exact (hshort.elim (· hshortopt) hlongopt).elim

theorem raises_iff : (∃ e, handleTYPELogic tm [w] = .error e) ↔
    (∃ possibilities, wordAction tm w = .ambiguous possibilities) ∨
      ∃ p e, wordAction tm w = .param p ∧ tm.applyParam p = .error e := by
  rw [handleTYPELogic]
  cases haction : wordAction tm w with
  | skip => simp [handleTYPELogic, Bind.bind, Except.bind, Pure.pure, Except.pure]
  | stop => simp
  | rewrite newParam => simp [handleTYPELogic, Bind.bind, Except.bind, Pure.pure, Except.pure]
  | ambiguous possibilities => simp
  | param p =>
    cases happly : tm.applyParam p with
    | error e => simp [happly]
    | ok tm' => simp [handleTYPELogic, happly, Bind.bind, Except.bind, Pure.pure, Except.pure]

/-- The name is written out with the argument behind an equals sign, and either the argument has
no other equals sign or what is left of it without them is an error; or the word is ambiguous. -/
def SpelledOut (tm : TypeManager) (w : Bytes) (op : Bytes → FileTypeParam) (A : Bytes) : Prop :=
  (∃ n ∈ selectionNames.map (·.1), w = dashDash ++ (n ++ equalsSign :: A) ∧
    (equalsSign ∉ A ∨ ∃ B e, split A equalsSign = [B] ∧ tm.applyParam (op B) = .error e)) ∨
  2 ≤ (tm.getMatchingTypenameList (w.drop 2)).length

theorem arg_of_selectionParam {i : OptIndex} (h : selectionParam i = some op) (B : Bytes) :
    (op B).arg = B := by
  cases i <;> cases h <;> rfl

/-- What `HandleTYPELogic` reads of an option that is spelled with an equals sign. -/
theorem fileTypeParam_attached {n : Bytes} {d : Descriptor OptIndex} {p : FileTypeParam}
    (hfree : equalsSign ∉ n) (hne : n ≠ []) (hfind : findLongOption dynamicUsage n = some d)
    (hop : selectionParam d.index = some op) :
    fileTypeParam (split (n ++ equalsSign :: A) equalsSign) = some p ↔
      n ∈ selectionNames.map (·.1) ∧ ∃ B, split A equalsSign = [B] ∧ p = op B := by
  rw [split_append_cons hne hfree]
  constructor
  · intro h
    obtain ⟨name, hparts⟩ := exists_split_of_fileTypeParam h
    obtain ⟨rfl, hB⟩ := List.cons.inj hparts
    rw [hB] at h
    have hmem := mem_of_fileTypeParam h
    obtain ⟨⟨_, i⟩, hi, rfl⟩ := List.mem_map.mp hmem
    have hindex := find_selectionNames _ hi
    rw [hfind, Option.map_some, Option.some.injEq] at hindex
    rw [fileTypeParam_of_mem hi (hindex ▸ hop)] at h
    exact ⟨hmem, _, hB, (Option.some.inj h).symm⟩
  · rintro ⟨hmem, B, hB, rfl⟩
    obtain ⟨⟨_, i⟩, hi, rfl⟩ := List.mem_map.mp hmem
    have hindex := find_selectionNames _ hi
    rw [hfind, Option.map_some, Option.some.injEq] at hindex
    rw [hB, fileTypeParam_of_mem hi (hindex ▸ hop)]

theorem not_no_prefix_append {n rest : Bytes} (hne : n ≠ []) (hhead : n.head? ≠ some 110) :
    ¬ str "no" <+: n ++ rest := by
  rintro ⟨tail, htail⟩
  have hfirst := congrArg List.head? htail
  rw [List.head?_append_of_ne_nil _ hne] at hfirst
  exact hhead (hfirst.symm.trans rfl)

section Spellings

variable {n : Bytes} {d : Descriptor OptIndex}

theorem wordAction_attached (hnamed : tm.builtinAndUserTypeMap.WellNamed) (hne : n ≠ [])
    (hhead : n.head? ≠ some 110) : wordAction tm (dashDash ++ (n ++ equalsSign :: A)) =
      ((fileTypeParam (split (n ++ equalsSign :: A) equalsSign)).map .param).getD .skip := by
  have hargtxt : n ++ equalsSign :: A ≠ [] := by simp
  have hmatching := getMatchingTypenameList_of_equalsSign hnamed
    (List.mem_append_right n List.mem_cons_self : equalsSign ∈ n ++ equalsSign :: A)
  rw [wordAction_dashDash hargtxt, if_neg (not_not.mpr hmatching),
    if_neg (not_no_prefix_append hne hhead)]

theorem wordAction_attached_ne_ambiguous (hnamed : tm.builtinAndUserTypeMap.WellNamed)
    (hne : n ≠ []) (hhead : n.head? ≠ some 110) (possibilities : Bytes) :
    wordAction tm (dashDash ++ (n ++ equalsSign :: A)) ≠ .ambiguous possibilities := by
  rw [wordAction_attached hnamed hne hhead]
  cases fileTypeParam (split (n ++ equalsSign :: A) equalsSign) <;> simp

theorem wordAction_attached_eq_param_iff (hnamed : tm.builtinAndUserTypeMap.WellNamed)
    (hfree : equalsSign ∉ n) (hne : n ≠ []) (hhead : n.head? ≠ some 110)
    (hfind : findLongOption dynamicUsage n = some d) (hop : selectionParam d.index = some op)
    {p : FileTypeParam} : wordAction tm (dashDash ++ (n ++ equalsSign :: A)) = .param p ↔
      n ∈ selectionNames.map (·.1) ∧ ∃ B, split A equalsSign = [B] ∧ p = op B := by
  rw [← fileTypeParam_attached hfree hne hfind hop, wordAction_attached hnamed hne hhead]
  cases fileTypeParam (split (n ++ equalsSign :: A) equalsSign) <;> simp

/-- The word of the detached form is only ever compared with the names of the types. -/
theorem wordAction_detached (hfree : equalsSign ∉ n) (hne : n ≠ []) (hhead : n.head? ≠ some 110) :
    wordAction tm (dashDash ++ n) =
      if tm.getMatchingTypenameList n ≠ [] then
        matchedAction [] n (tm.getMatchingTypenameList n) else .skip := by
  have hno : ¬ str "no" <+: n := by
    simpa using @not_no_prefix_append n [] hne hhead
  have hskip : fileTypeParam (split n equalsSign) = none := by
    rw [split_of_not_mem hne hfree]
    rfl
  rw [wordAction_dashDash hne, if_neg hno, hskip]
  rfl

theorem wordAction_detached_ne_param (hfree : equalsSign ∉ n) (hne : n ≠ [])
    (hhead : n.head? ≠ some 110) (p : FileTypeParam) : wordAction tm (dashDash ++ n) ≠ .param p := by
  rw [wordAction_detached hfree hne hhead]
  split_ifs
  · exact matchedAction_ne_param
  · simp

theorem exists_wordAction_detached_eq_ambiguous_iff (hfree : equalsSign ∉ n) (hne : n ≠ [])
    (hhead : n.head? ≠ some 110) :
    (∃ possibilities, wordAction tm (dashDash ++ n) = .ambiguous possibilities) ↔
      2 ≤ (tm.getMatchingTypenameList n).length := by
  rw [wordAction_detached hfree hne hhead]
  match tm.getMatchingTypenameList n with
  | [] => simp
  | [X] => simp [matchedAction]
  | X :: Y :: rest => simp [matchedAction]

end Spellings

/-- An occurrence of one of the file selection options has its effect, or is an error, exactly
when it is spelled out. -/
theorem selection_iff {pre pre' : List Bytes}
    (hpre : handleTYPELogic .new pre = .ok (tm, pre'))
    (hread : parseOptionWord dynamicUsage w next = some (opts, usesNext)) (ho : o ∈ opts)
    (hop : selectionParam o.index = some op) (harg : o.arg = some A) :
    (wordAction tm w = .param (op A) ∨ ∃ e, handleTYPELogic tm [w] = .error e) ↔
      tm.SpelledOut w op A := by
  have hnamed := keptByDefinitions_wellNamed.handleTYPELogic wellNamed_builtinTypeMap
    (fun w _ tm p hparam => equalsSign_not_mem_wordAction hparam) hpre
  obtain ⟨hA, n, d, hfree, hne, hhead, hfind, hindex, hword⟩ := of_selection hread ho hop harg
  rw [← hindex] at hop
  rw [raises_iff, SpelledOut]
  rcases hword with rfl | ⟨rfl, -⟩
  · have hdrop : (dashDash ++ (n ++ equalsSign :: A)).drop 2 = n ++ equalsSign :: A := rfl
    have hmatching := getMatchingTypenameList_of_equalsSign hnamed
      (List.mem_append_right n List.mem_cons_self : equalsSign ∈ n ++ equalsSign :: A)
    have hunique : ¬ 2 ≤ (tm.getMatchingTypenameList (n ++ equalsSign :: A)).length := by
      simp [hmatching]
    simp only [wordAction_attached_eq_param_iff hnamed hfree hne hhead hfind hop,
      wordAction_attached_ne_ambiguous hnamed hne hhead, exists_const, false_or, hdrop, hunique,
      or_false]
    constructor
    · rintro (⟨hmem, B, hB, heq⟩ | ⟨p, e, ⟨hmem, B, hB, rfl⟩, happly⟩)
      · have hBA : A = B := by
          rw [← arg_of_selectionParam hop A, heq, arg_of_selectionParam hop B]
        have hpart : A ∈ split A equalsSign := by
          rw [hB]
          exact List.mem_singleton.mpr hBA
        exact ⟨n, hmem, rfl, Or.inl fun hmem => (mem_of_mem_split hpart _ hmem).2 rfl⟩
      · exact ⟨n, hmem, rfl, Or.inr ⟨B, e, hB, happly⟩⟩
    · rintro ⟨n', hmem, heq, hA'⟩
      obtain rfl : n = n' := by simpa using heq
      rcases hA' with hfreeA | ⟨B, e, hB, happly⟩
      · exact Or.inl ⟨hmem, A, split_of_not_mem hA hfreeA, rfl⟩
      · exact Or.inr ⟨op B, e, ⟨hmem, B, hB, rfl⟩, happly⟩
  · have hdrop : (dashDash ++ n).drop 2 = n := rfl
    have hspelled : ∀ n', dashDash ++ n ≠ dashDash ++ (n' ++ equalsSign :: A) := by
      intro n' heq
      exact hfree (List.append_cancel_left heq ▸ List.mem_append_right n' List.mem_cons_self)
    simp only [wordAction_detached_ne_param hfree hne hhead, hspelled, false_and, and_false,
      exists_const, exists_false, false_or, or_false, hdrop]
    exact exists_wordAction_detached_eq_ambiguous_iff hfree hne hhead

theorem handleTYPELogic_program : handleTYPELogic .new [str "ucg"] = .ok (.new, [str "ucg"]) :=
  handleTYPELogic_of_skip fun w hw => by
    rw [List.mem_singleton.mp hw]
    decide

theorem selection_iff_include :
    wordAction .new (str "--include=*.c") = .param (.include (str "*.c")) ∨
      ∃ e, handleTYPELogic .new [str "--include=*.c"] = .error e := by
  have hread : parseOptionWord dynamicUsage (str "--include=*.c") none =
      some ([⟨.include, 0, some (str "*.c")⟩], false) := by decide
  exact (selection_iff handleTYPELogic_program hread List.mem_cons_self rfl rfl).mpr
    (Or.inl ⟨str "include", by decide, rfl, Or.inl (by decide)⟩)

/-- `--include *.c` is accepted, and nothing happens. -/
theorem not_selection_include : ¬ ∀ (tm : TypeManager) (pre pre' : List Bytes) (w A : Bytes)
    (next : Option Bytes) (usesNext : Bool) (opts : List (ParsedOption OptIndex))
    (o : ParsedOption OptIndex) (op : Bytes → FileTypeParam),
    handleTYPELogic .new pre = .ok (tm, pre') →
    parseOptionWord dynamicUsage w next = some (opts, usesNext) → o ∈ opts →
    selectionParam o.index = some op → o.arg = some A →
    wordAction tm w = .param (op A) ∨ ∃ e, handleTYPELogic tm [w] = .error e := by
  intro hclaim
  have hread : parseOptionWord dynamicUsage (str "--include") (some (str "*.c")) =
      some ([⟨.include, 0, some (str "*.c")⟩], true) := by decide
  have hskip : wordAction .new (str "--include") = .skip :=
    wordAction_new_eq_skip (str "include") (by decide) (by decide)
  rcases hclaim .new _ _ _ _ _ _ _ _ _ handleTYPELogic_program hread List.mem_cons_self rfl rfl
    with hparam | ⟨e, herror⟩
  · rw [hskip] at hparam
    cases hparam
  · rw [handleTYPELogic_of_skip fun w hw => List.mem_singleton.mp hw ▸ hskip] at herror
    cases herror

end TypeManager

end Ucg
