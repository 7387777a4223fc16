import Ucg.TypeRuns

/-! `--ignore-file` behind a type selection: which files it keeps out of the search. -/

namespace Ucg

open ByteOrder

/-- A word of the form `--NAME=ARG` that defines types. -/
def IsDefinitionWord (w : Bytes) : Prop :=
  ∃ argtxt p, w = dashDash ++ argtxt ∧ fileTypeParam (split argtxt equalsSign) = some p

/-- The filters of `FILTER:ARGS`. -/
def argsFilters (filterType args : Bytes) : List Bytes :=
  if filterType = str "is" then [args] else (split args comma).map (dot :: ·)

/-- The call that the argument of `--type` stands for. -/
def typeCall (o : ParsedOption OptIndex) : TypeCall :=
  let arg := o.arg.getD []
  if str "no" <+: arg then .notype (arg.drop 2) else .type arg

def typeCalls (opts : List (ParsedOption OptIndex)) : List TypeCall :=
  (optionChain opts .type).map typeCall

namespace TypeManager

variable {tm tm' : TypeManager} {w spec filterType args f : Bytes}

theorem optTypeStep_eq_ok {o : ParsedOption OptIndex} (h : optTypeStep tm o = .ok tm') :
    tm.IsDefined (typeCall o).typeName ∧ tm' = tm.call (typeCall o) := by
  rw [optTypeStep] at h
  by_cases hno : str "no" <+: o.arg.getD []
  · simp only [hno, if_true] at h
    split_ifs at h with hok
    rw [typeCall]
    simp only [hno, if_true]
    exact ⟨notype_fst_iff.mp hok, (Except.ok.inj h).symm⟩
  · simp only [hno, if_false] at h
    split_ifs at h with hok
    rw [typeCall]
    simp only [hno, if_false]
    exact ⟨type_fst_iff.mp hok, (Except.ok.inj h).symm⟩

theorem optTypeLoop_eq_ok {opts : List (ParsedOption OptIndex)}
    (h : optTypeLoop opts tm = .ok tm') :
    (∀ c ∈ typeCalls opts, tm.IsDefined c.typeName) ∧ tm' = tm.calls (typeCalls opts) := by
  rw [optTypeLoop] at h
  rw [typeCalls]
  generalize optionChain opts .type = chain at h
  induction chain generalizing tm with
  | nil =>
    obtain rfl := Except.ok.inj h
    exact ⟨by simp, rfl⟩
  | cons o rest ih =>
    rw [List.foldlM_cons] at h
    obtain ⟨tm₁, hstep, hrest⟩ := exists_of_bind_eq_ok h
    obtain ⟨hdef, rfl⟩ := optTypeStep_eq_ok hstep
    obtain ⟨hdefs, rfl⟩ := ih hrest
    refine ⟨fun c hc => ?_, rfl⟩
    rcases List.mem_cons.mp hc with rfl | hc
    · exact hdef
    · obtain ⟨filters, hf⟩ := hdefs c hc
      exact ⟨filters, (sameDefinitions_call tm _).builtinAndUserTypeMap ▸ hf⟩

theorem handleTYPELogic_of_not_definition {words words' : List Bytes}
    (h : ∀ w ∈ words, ¬ IsDefinitionWord w)
    (hlogic : handleTYPELogic tm words = .ok (tm', words')) : tm' = tm := by
  rw [← List.append_nil words] at hlogic
  obtain ⟨tm₁, back', rfl, hnil⟩ := handleTYPELogic_invariant (I := (· = tm)) rfl
    (fun w hw tm₁ p tm₂ _ haction _ => by
      obtain ⟨argtxt, -, rfl, -, -, hp⟩ := wordAction_eq_param_iff.mp haction
      exact (h _ hw ⟨argtxt, p, rfl, hp⟩).elim) hlogic
  obtain ⟨rfl, -⟩ := Prod.mk.inj (Except.ok.inj hnil)
  rfl

theorem mem_of_foldl_typeAddExt {fileType e : Bytes} {exts : List Bytes} (he : e ∈ exts) :
    ∃ filters, (exts.foldl (fun tm ext => tm.typeAddExt fileType ext)
      tm).builtinAndUserTypeMap.find? fileType = some filters ∧ dot :: e ∈ filters := by
  induction exts using List.reverseRecOn with
  | nil => simp at he
  | append_singleton exts ext ih =>
    rw [List.foldl_append, List.foldl_cons, List.foldl_nil, typeAddExt]
    refine ⟨_, (TypeMap.find?_pushBack _ _ _ _).trans (if_pos rfl), ?_⟩
    rcases List.mem_append.mp he with he | he
    · obtain ⟨filters, hf, hmem⟩ := ih he
      rw [hf]
      exact List.mem_append_left _ hmem
    · rw [List.mem_singleton.mp he]
      exact List.mem_append_right _ List.mem_cons_self

theorem mem_of_typeAddFromFilterSpecString {fileType : Bytes}
    (hsplit : split spec colon = [fileType, filterType, args])
    (hfilter : filterType = str "ext" ∨ filterType = str "is")
    (hadd : tm.typeAddFromFilterSpecString false spec = .ok tm')
    (hf : f ∈ argsFilters filterType args) :
    ∃ filters, tm'.builtinAndUserTypeMap.find? fileType = some filters ∧ f ∈ filters := by
  rw [typeAddFromFilterSpecString, hsplit] at hadd
  rcases hfilter with rfl | rfl
  · obtain rfl : (split args comma).foldl (fun tm ext => tm.typeAddExt fileType ext) tm = tm' :=
      Except.ok.inj hadd
    obtain ⟨e, he, rfl⟩ := List.mem_map.mp hf
    exact mem_of_foldl_typeAddExt he
  · obtain rfl : tm.typeAddIs fileType args = tm' := Except.ok.inj hadd
    obtain rfl := List.mem_singleton.mp hf
    exact ⟨_, (TypeMap.find?_pushBack _ _ _ _).trans (if_pos rfl), by simp⟩

theorem wordAction_ignoreFile (h : tm.builtinAndUserTypeMap.WellNamed) (hne : spec ≠ [])
    (hspec : equalsSign ∉ spec) :
    wordAction tm (str "--ignore-file=" ++ spec) = .param (.ignoreFile spec) := by
  refine wordAction_eq_param_iff.mpr ⟨str "ignore-file" ++ equalsSign :: spec, ?_, rfl, ?_, ?_, ?_⟩
  · simp
  · exact getMatchingTypenameList_of_equalsSign h (by simp)
  · rintro ⟨rest, hrest⟩
    have hhead : some (110 : UInt8) = some 105 := congrArg List.head? hrest
    exact absurd hhead (by decide)
  · rw [split_append_cons (by decide) (by decide), split_of_not_mem hne hspec]
    rfl

/-- The word `--ignore-file=FILTER:ARGS` leaves the filters of `ARGS` removed. -/
theorem isRemovedFilter_of_ignoreFile (h : tm.builtinAndUserTypeMap.WellNamed)
    (hsplit : split spec colon = [filterType, args])
    (hfilter : filterType = str "ext" ∨ filterType = str "is") (hspec : equalsSign ∉ spec)
    {post words : List Bytes} (hpost : ∀ w ∈ post, ¬ IsDefinitionWord w)
    (hlogic : handleTYPELogic tm ((str "--ignore-file=" ++ spec) :: post) = .ok (tm', words))
    (hf : f ∈ argsFilters filterType args) : tm'.IsRemovedFilter f := by
  have hne : spec ≠ [] := by
    rintro rfl
    simp [split] at hsplit
  have haction := wordAction_ignoreFile h hne hspec
  obtain ⟨tm₁, rest, hword, hrest⟩ := handleTYPELogic_cons hlogic
  rw [handleTYPELogic_of_not_definition hpost hrest]
  rcases hword with ⟨hnone, -⟩ | ⟨p, hparam, happly⟩
  · exact (hnone _ haction).elim
  · obtain rfl := WordAction.param.inj (haction.symm.trans hparam)
    obtain ⟨tm₂, hadd, rfl⟩ := typeAddIgnoreFile_inversion happly
    have hfull : split (ignoreFileTypeName ++ str ":" ++ spec) colon =
        [ignoreFileTypeName, filterType, args] := by
      rw [split_ignoreFileSpec, hsplit]
    obtain ⟨filters, hfind, hmem⟩ :=
      mem_of_typeAddFromFilterSpecString hfull hfilter hadd hf
    rw [IsRemovedFilter, removedTypeFilters_notype hfind, List.map_append, List.mem_append]
    exact Or.inr (by simpa using hmem)

/-- A type that the calls leave active has the filter, and the last call of a type with the
filter selects it, or there is none and the word is one that nothing is done for. -/
def Reselected (tm : TypeManager) (cs : List TypeCall) (spec f : Bytes) : Prop :=
  (∃ t filters, tm.activeFilters cs t = some filters ∧ f ∈ filters) ∧
    ((∃ c, lastSuch (tm.concerns f) cs = some c ∧ c.isType = true) ∨
      (equalsSign ∈ spec ∧ lastSuch (tm.concerns f) cs = none ∧ ¬ tm.IsRemovedFilter f))

theorem isSelected_calls_iff {cs : List TypeCall} (hdef : ∀ c ∈ cs, tm.IsDefined c.typeName)
    (hremoved : equalsSign ∉ spec → tm.IsRemovedFilter f) :
    (tm.calls cs).IsSelected f ↔ tm.Reselected cs spec f := by
  rw [IsSelected, IsActiveFilter, Reselected, isRemovedFilter_calls]
  simp only [find?_activeTypeMap_calls hdef]
  refine and_congr_right fun _ => ?_
  cases hlast : lastSuch (tm.concerns f) cs with
  | none =>
    by_cases hspec : equalsSign ∈ spec
    · simp [hspec]
    · simp [hspec, hremoved hspec]
  | some c => simp

theorem nul_not_mem_combineArgv {userArgv projectArgv argv : List CString} {w : Bytes}
    (h : w ∈ combineArgv (userArgv.map (·.bytes)) (projectArgv.map (·.bytes))
      (argv.map (·.bytes))) : nul ∉ w := by
  have hcstring : ∀ l : List CString, w ∈ l.map (·.bytes) → nul ∉ w := by
    intro l hl
    obtain ⟨s, -, rfl⟩ := List.mem_map.mp hl
    exact s.nulFree
  rw [combineArgv] at h
  split_ifs at h
  · exact hcstring argv h
  · simp only [List.mem_append] at h
    rcases h with ((h | h) | h) | h
    · exact hcstring argv (List.mem_of_mem_take h)
    · exact hcstring userArgv h
    · exact hcstring projectArgv h
    · exact hcstring argv (List.mem_of_mem_drop h)

/-- Behind the last definition word, `--ignore-file=FILTER:ARGS`, a file that no other filter and
no include glob lets in is kept out exactly when an exclude glob matches it or the `--type` words,
wherever they stand, do not select a filter of `ARGS` again. -/
theorem ignoreFile_wins_iff {env : ParseEnv} (userArgv projectArgv argv : List CString)
    (pre post : List Bytes) {words : List Bytes} {tm₁ : TypeManager}
    {opts : List (ParsedOption OptIndex)} {nonOptions : List Bytes} {ap : ArgParse}
    (hcombine : combineArgv (userArgv.map (·.bytes)) (projectArgv.map (·.bytes))
      (argv.map (·.bytes)) = pre ++ (str "--ignore-file=" ++ spec) :: post)
    (hsplit : split spec colon = [filterType, args])
    (hfilter : filterType = str "ext" ∨ filterType = str "is")
    (hpost : ∀ w ∈ post, ¬ IsDefinitionWord w)
    (hlogic : handleTYPELogic .new (pre ++ (str "--ignore-file=" ++ spec) :: post) =
      .ok (tm₁, words))
    (haccepted : parseArgs dynamicUsage (words.drop 1) = some (opts, nonOptions))
    (hparse : parse env .new (userArgv.map (·.bytes)) (projectArgv.map (·.bytes))
      (argv.map (·.bytes)) = .ok (ap, tm'))
    (fnmatch : Bytes → Bytes → Bool) (name : CString)
    (hother : ∀ f ∈ lookupFilters name.bytes, f ∉ argsFilters filterType args →
      ¬ tm'.compileTypeTables.InSearchTables f)
    (hglob : ∀ glob, (glob, true) ∈ tm'.includeExcludeGlobs → fnmatch glob name.bytes = false) :
    tm'.compileTypeTables.fileShouldBeScanned fnmatch name.bytes = false ↔
      tm'.isExcludedByAnyGlob fnmatch name.bytes = true ∨
        ∀ f ∈ lookupFilters name.bytes, f ∈ argsFilters filterType args →
          ¬ tm₁.Reselected (typeCalls opts) spec f := by
  have hnul : ∀ w ∈ pre ++ (str "--ignore-file=" ++ spec) :: post, nul ∉ w := fun w hw =>
    nul_not_mem_combineArgv (hcombine ▸ hw)
  rw [parse_of_words ((congrArg (handleTYPELogic .new) hcombine).trans hlogic) haccepted] at hparse
  obtain ⟨pattern, paths, dirjobs, jobs, -, hloop, -, -, -⟩ := parseOptions_eq_ok hparse
  obtain ⟨hdef, rfl⟩ := optTypeLoop_eq_ok hloop
  have huncompiled : tm₁.Uncompiled :=
    keptByDefinitions_uncompiled.handleTYPELogic onlyDefined_new.uncompiled
      (fun w hw tm p hparam => not_mem_arg_of_wordAction (hnul w hw) hparam) hlogic
  have hcalls := huncompiled.calls (typeCalls opts)
  obtain ⟨tm₀, back, hnamed, hback⟩ := handleTYPELogic_invariant
    (I := fun tm => tm.builtinAndUserTypeMap.WellNamed) wellNamed_builtinTypeMap
    (fun w _ tm p _ h haction happly => keptByDefinitions_wellNamed.applyParam h
      (equalsSign_not_mem_wordAction haction) happly) hlogic
  have hselected : ∀ f ∈ argsFilters filterType args,
      (tm₁.calls (typeCalls opts)).IsSelected f ↔ tm₁.Reselected (typeCalls opts) spec f :=
    fun f hf => isSelected_calls_iff hdef fun hspec =>
      isRemovedFilter_of_ignoreFile hnamed hsplit hfilter hspec hpost hback hf
  rw [← Bool.not_eq_true, fileShouldBeScanned_iff hcalls name.nulFree hglob, not_and_or,
    Bool.not_eq_false, or_comm]
  refine or_congr_right ⟨fun hnone f hf hargs hsel => ?_, fun hnone hsel => ?_⟩
  · exact hnone ⟨f, hf, (hselected f hargs).mpr hsel⟩
  · obtain ⟨f, hf, hsel⟩ := hsel
    by_cases hargs : f ∈ argsFilters filterType args
    · exact hnone f hf hargs ((hselected f hargs).mp hsel)
    · exact hother f hf hargs ((inSearchTables_lookup_iff hcalls name.nulFree hf).mpr hsel)

section Examples

/-- What the word `--ignore-file=ext:c` makes of the built-in types. -/
def ignoreC : TypeManager :=
  ((TypeManager.new.typeAddExt ignoreFileTypeName (str "c")).notype ignoreFileTypeName).2

theorem handleTYPELogic_ignoreC (pre : List Bytes)
    (hpre : ∀ w ∈ pre, wordAction .new w = .skip) :
    handleTYPELogic .new (pre ++ (str "--ignore-file=" ++ str "ext:c") :: [str "x"]) =
      .ok (ignoreC, pre ++ (str "--ignore-file=" ++ str "ext:c") :: [str "x"]) := by
  have hx : handleTYPELogic ignoreC [str "x"] = .ok (ignoreC, [str "x"]) :=
    handleTYPELogic_of_skip fun w hw => by
      rw [List.mem_singleton.mp hw, wordAction, if_pos (by decide)]
  have happly : TypeManager.new.applyParam (.ignoreFile (str "ext:c")) = .ok ignoreC := rfl
  induction pre with
  | nil =>
    rw [List.nil_append, handleTYPELogic,
      wordAction_ignoreFile wellNamed_builtinTypeMap (by decide) (by decide)]
    dsimp only
    rw [happly]
    dsimp only
    rw [hx]
    rfl
  | cons w rest ih =>
    rw [List.cons_append, handleTYPELogic, hpre w List.mem_cons_self]
    dsimp only
    rw [ih fun w hw => hpre w (List.mem_cons_of_mem _ hw)]
    rfl

theorem find?_ignoreC_cc :
    ignoreC.builtinAndUserTypeMap.find? (str "cc") = some [str ".c", str ".h", str ".xs"] := by
  rw [ignoreC, builtinAndUserTypeMap_notype]
  exact (TypeMap.find?_pushBack builtinTypeMap _ _ _).trans
    ((if_neg (by decide)).trans find?_builtinTypeMap_cc)

theorem typeStep_ignoreC : TypeStep .new (.ignoreFile ⟨str "ext:c", by decide⟩) ignoreC := rfl

theorem mapsWithin_ignoreC : MapsWithin (fun _ f => f ≠ str "a.c") ignoreC := by
  have hbuiltin : ∀ e ∈ builtinTypeArray, ∀ f ∈ e.2.map str, f ≠ str "a.c" := by decide
  have hgives : ∀ e ∈ (TypeOp.ignoreFile ⟨str "ext:c", by decide⟩).gives, e.2.stored ≠ str "a.c" := by
    decide
  have hdefined : ∀ t filters, builtinTypeMap.find? t = some filters → ∀ f ∈ filters, f ≠ str "a.c" :=
    fun t filters => forall_builtinTypeMap (P := fun _ filters => ∀ f ∈ filters, f ≠ str "a.c") hbuiltin
  have hnew : MapsWithin (fun _ f => f ≠ str "a.c") .new :=
    ⟨colonFree_builtinTypeMap, hdefined, fun t filters hfind => ⟨⟨filters, hfind⟩, hdefined t filters hfind⟩⟩
  exact hnew.step (fun t g hg => hgives (t, g) hg) typeStep_ignoreC

theorem not_inSearchTables_a {tm : TypeManager} (h : tm.Uncompiled)
    (hmaps : MapsWithin (fun _ f => f ≠ str "a.c") tm) : ∀ f ∈ lookupFilters (str "a.c"),
      f ∉ argsFilters (str "ext") (str "c") → ¬ tm.compileTypeTables.InSearchTables f := by
  intro f hf hargs hin
  have hname : ∀ f ∈ lookupFilters (str "a.c"), f ∉ argsFilters (str "ext") (str "c") → f = str "a.c" := by
    decide
  obtain ⟨⟨t, filters, hfind, hmem⟩, -⟩ := (inSearchTables_lookup_iff h (by decide) hf).mp hin
  exact (hmaps.active t filters hfind).2 f hmem (hname f hf hargs)

theorem uncompiled_ignoreC : ignoreC.Uncompiled :=
  typeStep_ignoreC.uncompiled onlyDefined_new.uncompiled

theorem not_isDefinitionWord_x : ∀ w ∈ [str "x"], ¬ IsDefinitionWord w := by
  rintro w hw ⟨argtxt, p, rfl, -⟩
  have hlen := congrArg List.length (List.mem_singleton.mp hw)
  have hx : (str "x").length = 1 := by decide
  have hdash : dashDash.length = 2 := rfl
  rw [List.length_append, hx, hdash] at hlen
  omega

theorem wordAction_program (tm : TypeManager) : wordAction tm (str "ucg") = .skip := by
  rw [wordAction, if_pos (by decide)]

theorem ignoreFile_wins_iff_c : ∃ ap,
    parse ⟨true, 8⟩ .new [] [] [str "ucg", str "--ignore-file=ext:c", str "x"] =
        .ok (ap, ignoreC) ∧
      ignoreC.compileTypeTables.fileShouldBeScanned (fun _ _ => false) (str "a.c") = false := by
  have hlogic := handleTYPELogic_ignoreC [str "ucg"] fun w hw => by
    rw [List.mem_singleton.mp hw, wordAction_program]
  have haccepted : parseArgs dynamicUsage [str "--ignore-file=ext:c", str "x"] =
      some ([⟨.ignoreFile, 0, some (str "ext:c")⟩], [str "x"]) := by decide
  have hcombine : combineArgv [] [] [str "ucg", str "--ignore-file=ext:c", str "x"] =
      [str "ucg"] ++ (str "--ignore-file=" ++ str "ext:c") :: [str "x"] := by decide
  have hother := not_inSearchTables_a uncompiled_ignoreC mapsWithin_ignoreC
  obtain ⟨ap, hparse⟩ : ∃ ap, parse ⟨true, 8⟩ .new [] []
      [str "ucg", str "--ignore-file=ext:c", str "x"] = .ok (ap, ignoreC) := by
    rw [parse_of_words ((congrArg (handleTYPELogic .new) hcombine).trans hlogic) haccepted]
    exact ⟨_, rfl⟩
  refine ⟨ap, hparse, ?_⟩
  refine (ignoreFile_wins_iff [] [] [⟨str "ucg", by decide⟩, ⟨str "--ignore-file=ext:c", by decide⟩,
    ⟨str "x", by decide⟩] [str "ucg"] [str "x"] hcombine (by decide) (Or.inl rfl)
    not_isDefinitionWord_x hlogic haccepted hparse _ ⟨str "a.c", by decide⟩ hother
    (fun glob hglob => rfl)).mpr (Or.inr fun f _ _ hsel => ?_)
  rcases hsel.2 with ⟨c, hlast, -⟩ | ⟨hspec, -⟩
  · cases hlast
  · exact absurd hspec (by decide)

/-- `--type=cc --ignore-file=ext:c`: the file `a.c` is searched. -/
theorem not_ignoreFile_wins_type : ¬ ∀ (env : ParseEnv) (userArgv projectArgv argv : List CString)
    (pre post words : List Bytes) (spec filterType args : Bytes) (tm₁ tm' : TypeManager)
    (opts : List (ParsedOption OptIndex)) (nonOptions : List Bytes) (ap : ArgParse)
    (fnmatch : Bytes → Bytes → Bool) (name : CString),
    combineArgv (userArgv.map (·.bytes)) (projectArgv.map (·.bytes)) (argv.map (·.bytes)) =
      pre ++ (str "--ignore-file=" ++ spec) :: post →
    split spec colon = [filterType, args] → filterType = str "ext" ∨ filterType = str "is" →
    (∀ w ∈ post, ¬ IsDefinitionWord w) →
    handleTYPELogic .new (pre ++ (str "--ignore-file=" ++ spec) :: post) = .ok (tm₁, words) →
    parseArgs dynamicUsage (words.drop 1) = some (opts, nonOptions) →
    parse env .new (userArgv.map (·.bytes)) (projectArgv.map (·.bytes)) (argv.map (·.bytes)) =
      .ok (ap, tm') →
    (∃ f ∈ lookupFilters name.bytes, f ∈ argsFilters filterType args) →
    (∀ f ∈ lookupFilters name.bytes, f ∉ argsFilters filterType args →
      ¬ tm'.compileTypeTables.InSearchTables f) →
    (∀ glob, (glob, true) ∈ tm'.includeExcludeGlobs → fnmatch glob name.bytes = false) →
    tm'.compileTypeTables.fileShouldBeScanned fnmatch name.bytes = false := by
  intro hclaim
  have hskip : wordAction .new (str "--type=cc") = .skip :=
    wordAction_new_eq_skip (str "type=cc") (by decide) (by decide)
  have hlogic := handleTYPELogic_ignoreC [str "ucg", str "--type=cc"] fun w hw => by
    rcases List.mem_cons.mp hw with rfl | hw
    · exact wordAction_program .new
    · rw [List.mem_singleton.mp hw, hskip]
  have haccepted : parseArgs dynamicUsage [str "--type=cc", str "--ignore-file=ext:c", str "x"] =
      some ([⟨.type, enable, some (str "cc")⟩, ⟨.ignoreFile, 0, some (str "ext:c")⟩],
        [str "x"]) := by decide
  have hcombine : combineArgv [] []
      [str "ucg", str "--type=cc", str "--ignore-file=ext:c", str "x"] =
      [str "ucg", str "--type=cc"] ++ (str "--ignore-file=" ++ str "ext:c") :: [str "x"] := by
    decide
  have hstep : optTypeStep ignoreC ⟨.type, enable, some (str "cc")⟩ =
      .ok (ignoreC.type (str "cc")).2 :=
    optTypeStep_eq_ok_iff.mpr (Or.inr ⟨by decide, ⟨_, find?_ignoreC_cc⟩, rfl⟩)
  have hloop : optTypeLoop [⟨.type, enable, some (str "cc")⟩,
      ⟨.ignoreFile, 0, some (str "ext:c")⟩] ignoreC = .ok (ignoreC.type (str "cc")).2 := by
    simp [optTypeLoop, optionChain, hstep]
  obtain ⟨ap, hparse⟩ : ∃ ap, parse ⟨true, 8⟩ .new [] []
      [str "ucg", str "--type=cc", str "--ignore-file=ext:c", str "x"] =
        .ok (ap, (ignoreC.type (str "cc")).2) := by
    rw [parse_of_words ((congrArg (handleTYPELogic .new) hcombine).trans hlogic) haccepted,
      parseOptions, if_neg (by decide)]
    dsimp only
    rw [hloop]
    exact ⟨_, rfl⟩
  have huncompiled : (ignoreC.type (str "cc")).2.Uncompiled := uncompiled_ignoreC.call (.type (str "cc"))
  have hother := not_inSearchTables_a huncompiled (mapsWithin_ignoreC.call (.type (str "cc")))
  have hscanned : (ignoreC.type (str "cc")).2.compileTypeTables.fileShouldBeScanned
      (fun _ _ => false) (str "a.c") = true := by
    rw [fileShouldBeScanned_iff huncompiled (by decide) fun _ _ => rfl]
    refine ⟨⟨str ".c", by decide, ?_, ?_⟩, rfl⟩
    · exact (isActiveFilter_type_of_unseen find?_ignoreC_cc rfl).mpr List.mem_cons_self
    · exact fun hremoved => ((isRemovedFilter_type find?_ignoreC_cc).mp hremoved).2 List.mem_cons_self
  have hnot := hclaim ⟨true, 8⟩ [] [] [⟨str "ucg", by decide⟩, ⟨str "--type=cc", by decide⟩,
    ⟨str "--ignore-file=ext:c", by decide⟩, ⟨str "x", by decide⟩] _ _ _ _ _ _ _ _ _ _ ap
    (fun _ _ => false) ⟨str "a.c", by decide⟩ hcombine (by decide) (Or.inl rfl)
    not_isDefinitionWord_x hlogic haccepted hparse ⟨str ".c", by decide, by decide⟩ hother
    fun _ _ => rfl
  exact absurd (hscanned.symm.trans hnot) (by decide)

end Examples

end TypeManager

end Ucg
