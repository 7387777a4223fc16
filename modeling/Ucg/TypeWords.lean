import Ucg.LastOption
import Ucg.TypeDefinitions

/-! The words `--TYPE` and `--noTYPE`: what `HandleTYPELogic` and the loop over the `--type`
options make of the name of a defined type. -/

namespace Ucg

open ByteOrder

/-- Names and filters are never empty, and the options that define types cut at `=`. -/
def TypeMap.WellNamed (m : TypeMap) : Prop :=
  ∀ t filters, m.find? t = some filters → t ≠ [] ∧ equalsSign ∉ t ∧ filters ≠ []

theorem TypeMap.WellNamed.pushBack {m : TypeMap} (h : m.WellNamed) {type : Bytes}
    (hne : type ≠ []) (heq : equalsSign ∉ type) (filter : Bytes) :
    (m.pushBack type filter).WellNamed := by
  intro t filters hfind
  rw [find?_pushBack] at hfind
  by_cases ht : t = type
  · rw [if_pos ht] at hfind
    obtain rfl := Option.some.inj hfind
    exact ⟨ht ▸ hne, ht ▸ heq, by simp⟩
  · rw [if_neg ht] at hfind
    exact h t filters hfind

theorem TypeMap.WellNamed.erase {m : TypeMap} (h : m.WellNamed) (type : Bytes) :
    WellNamed (m.erase type) := by
  intro t filters hfind
  rw [SortedMap.find?_erase] at hfind
  by_cases ht : t = type
  · simp [ht] at hfind
  · rw [if_neg ht] at hfind
    exact h t filters hfind

theorem wellNamed_builtinTypeMap : builtinTypeMap.WellNamed := by
  intro t filters hfind
  obtain ⟨hname, hequals, -, hfilters, -⟩ := builtinTypeMap_wellFormed hfind
  exact ⟨hname, hequals, hfilters⟩

def FileTypeParam.arg : FileTypeParam → Bytes
  | typeAdd filterSpec => filterSpec
  | typeSet filterSpec => filterSpec
  | typeDel type => type
  | ignoreFile filterSpec => filterSpec
  | exclude glob => glob
  | «include» glob => glob

theorem exists_split_of_fileTypeParam {parts : List Bytes} {p : FileTypeParam}
    (h : fileTypeParam parts = some p) : ∃ name, parts = [name, p.arg] := by
  rw [fileTypeParam.eq_def] at h
  split at h
  · rename_i name arg
    refine ⟨name, ?_⟩
    split_ifs at h <;> obtain rfl := Option.some.inj h <;> rfl
  · cases h

namespace TypeManager

variable {tm tm' : TypeManager} {T : Bytes}

theorem wordAction_dashDash {argtxt : Bytes} (h : argtxt ≠ []) :
    wordAction tm (dashDash ++ argtxt) =
      if tm.getMatchingTypenameList argtxt ≠ [] then
        matchedAction [] argtxt (tm.getMatchingTypenameList argtxt)
      else if str "no" <+: argtxt then
        matchedAction (str "no") argtxt (tm.getMatchingTypenameList (argtxt.drop 2))
      else ((fileTypeParam (split argtxt equalsSign)).map .param).getD .skip := by
  have hlen : ¬ (dashDash ++ argtxt).length < 3 := by
    have := List.length_pos_of_ne_nil h
    simp [dashDash]
    omega
  have hne : dashDash ++ argtxt ≠ dashDash := by simpa using h
  have hdrop : (dashDash ++ argtxt).drop 2 = argtxt := rfl
  rw [wordAction, if_neg (by simpa using hlen), if_neg hne, hdrop]
  cases hmatch : tm.getMatchingTypenameList argtxt with
  | nil => cases hp : fileTypeParam (split argtxt equalsSign) <;> simp [hmatch, hp]
  | cons name rest => simp [hmatch]

theorem matchedAction_ne_param {no argtxt : Bytes} {names : List Bytes} {p : FileTypeParam} :
    matchedAction no argtxt names ≠ .param p := by
  rw [matchedAction.eq_def]
  split <;> simp

theorem exists_dashDash_of_wordAction {w : Bytes} {action : WordAction}
    (h : wordAction tm w = action) (hskip : action ≠ .skip) :
    ∃ argtxt, argtxt ≠ [] ∧ w = dashDash ++ argtxt := by
  rw [wordAction] at h
  by_cases hlong : w.length < 3 ∨ ¬ dashDash <+: w
  · rw [if_pos hlong] at h
    exact (hskip h.symm).elim
  · obtain ⟨hlen, hdash⟩ := not_or.mp hlong
    obtain ⟨argtxt, rfl⟩ := not_not.mp hdash
    refine ⟨argtxt, ?_, rfl⟩
    rintro rfl
    exact hlen (by decide)

/-- A word defines something when no type name matches it and it splits into the name of one of
the six options and an argument. -/
theorem wordAction_eq_param_iff {w : Bytes} {p : FileTypeParam} : wordAction tm w = .param p ↔
    ∃ argtxt, argtxt ≠ [] ∧ w = dashDash ++ argtxt ∧ tm.getMatchingTypenameList argtxt = [] ∧
      ¬ str "no" <+: argtxt ∧ fileTypeParam (split argtxt equalsSign) = some p := by
  constructor
  · intro h
    obtain ⟨argtxt, hne, rfl⟩ := exists_dashDash_of_wordAction h (by simp)
    rw [wordAction_dashDash hne] at h
    split_ifs at h with hmatch hno
    · exact (matchedAction_ne_param h).elim
    · exact (matchedAction_ne_param h).elim
    · refine ⟨argtxt, hne, rfl, not_not.mp hmatch, hno, ?_⟩
      cases hp : fileTypeParam (split argtxt equalsSign) with
      | none => simp [hp] at h
      | some p' =>
        rw [hp] at h
        rw [WordAction.param.inj h]
  · rintro ⟨argtxt, hne, rfl, hmatch, hno, hp⟩
    rw [wordAction_dashDash hne, if_neg (not_not.mpr hmatch), if_neg hno, hp]
    rfl

theorem wordAction_ne_stop {w : Bytes} : wordAction tm w ≠ .stop := by
  intro h
  obtain ⟨argtxt, hne, rfl⟩ := exists_dashDash_of_wordAction h (by simp)
  rw [wordAction_dashDash hne, matchedAction.eq_def, matchedAction.eq_def] at h
  split_ifs at h
  · split at h <;> cases h
  · split at h <;> cases h
  · cases hp : fileTypeParam (split argtxt equalsSign) <;> simp [hp] at h

theorem handleTYPELogic_cons {w : Bytes} {rest words : List Bytes}
    (h : handleTYPELogic tm (w :: rest) = .ok (tm', words)) :
    ∃ tm₁ rest', ((∀ p, wordAction tm w ≠ .param p) ∧ tm₁ = tm ∨
        ∃ p, wordAction tm w = .param p ∧ tm.applyParam p = .ok tm₁) ∧
      handleTYPELogic tm₁ rest = .ok (tm', rest') := by
  rw [handleTYPELogic] at h
  cases haction : wordAction tm w with
  | stop => exact (wordAction_ne_stop haction).elim
  | skip =>
    rw [haction] at h
    obtain ⟨⟨tm₁, rest'⟩, hrest, hok⟩ := exists_of_bind_eq_ok h
    obtain ⟨rfl, -⟩ := Prod.mk.inj (Except.ok.inj hok)
    exact ⟨tm, rest', Or.inl ⟨by simp, rfl⟩, hrest⟩
  | rewrite newParam =>
    rw [haction] at h
    obtain ⟨⟨tm₁, rest'⟩, hrest, hok⟩ := exists_of_bind_eq_ok h
    obtain ⟨rfl, -⟩ := Prod.mk.inj (Except.ok.inj hok)
    exact ⟨tm, rest', Or.inl ⟨by simp, rfl⟩, hrest⟩
  | ambiguous possibilities => simp [haction] at h
  | param p =>
    rw [haction] at h
    dsimp only at h
    cases happly : tm.applyParam p with
    | error e => simp [happly] at h
    | ok tm₁ =>
      rw [happly] at h
      obtain ⟨⟨tm₂, rest'⟩, hrest, hok⟩ := exists_of_bind_eq_ok h
      obtain ⟨rfl, -⟩ := Prod.mk.inj (Except.ok.inj hok)
      exact ⟨tm₁, rest', Or.inr ⟨p, rfl, happly⟩, hrest⟩

theorem equalsSign_not_mem_arg {argtxt : Bytes} {p : FileTypeParam}
    (h : fileTypeParam (split argtxt equalsSign) = some p) : equalsSign ∉ p.arg := by
  obtain ⟨name, hsplit⟩ := exists_split_of_fileTypeParam h
  have hpart : p.arg ∈ split argtxt equalsSign := by simp [hsplit]
  exact fun hmem => (mem_of_mem_split hpart _ hmem).2 rfl

theorem equalsSign_not_mem_wordAction {w : Bytes} {p : FileTypeParam}
    (h : wordAction tm w = .param p) : equalsSign ∉ p.arg := by
  obtain ⟨argtxt, -, -, -, -, hp⟩ := wordAction_eq_param_iff.mp h
  exact equalsSign_not_mem_arg hp

theorem not_mem_arg_of_wordAction {c : UInt8} {w : Bytes} {p : FileTypeParam} (hw : c ∉ w)
    (h : wordAction tm w = .param p) : c ∉ p.arg := by
  obtain ⟨argtxt, -, rfl, -, -, hp⟩ := wordAction_eq_param_iff.mp h
  obtain ⟨name, hsplit⟩ := exists_split_of_fileTypeParam hp
  have hpart : p.arg ∈ split argtxt equalsSign := by simp [hsplit]
  exact fun hmem => hw (List.mem_append_right _ (mem_of_mem_split hpart _ hmem).1)

/-- The states that the words of a command line and calls of `type` and `notype` reach. -/
inductive Reached : TypeManager → Prop
  | new : Reached .new
  | word {tm tm' : TypeManager} (w : Bytes) (p : FileTypeParam) : Reached tm →
      wordAction tm w = .param p → tm.applyParam p = .ok tm' → Reached tm'
  | call {tm : TypeManager} (c : TypeCall) : Reached tm → Reached (tm.call c)

section Definitions

variable {c : UInt8} {I : TypeManager → Prop}

/-- The texts that the definitions add to what stands in the words. -/
def definitionTexts : Bytes :=
  str ".?" ++ (ignoreFileTypeName ++ str ":" ++ (includeGlobFileTypeName ++ str "globx:"))

/-- A property that every operation keeps whose arguments do not contain the byte `c`. -/
structure KeptByDefinitions (c : UInt8) (I : TypeManager → Prop) : Prop where
  texts : c ∉ definitionTexts
  typeAddIs : ∀ (tm : TypeManager) (type filter : Bytes), I tm → type ≠ [] → c ∉ type →
    c ∉ filter → I (tm.typeAddIs type filter)
  globs : ∀ (tm : TypeManager) (excludes : List Bytes) (includes : List (Bytes × Bool)), I tm →
    I { tm with excludeGlobs := excludes, includeExcludeGlobs := includes }
  typeDel : ∀ (tm : TypeManager) (type : Bytes), I tm → I (tm.typeDel type).2
  call : ∀ (tm : TypeManager) (call : TypeCall), I tm → I (tm.call call)

theorem KeptByDefinitions.not_mem_texts (hI : KeptByDefinitions c I) {text : Bytes}
    (htext : text ⊆ definitionTexts) {s : Bytes} (hs : c ∉ s) : c ∉ text ++ s := by
  rw [List.mem_append, not_or]
  exact ⟨fun h => hI.texts (htext h), hs⟩

theorem KeptByDefinitions.typeAddFromFilterSpecString (hI : KeptByDefinitions c I)
    {deleteTypeFirst : Bool} {spec : Bytes} (h : I tm) (hspec : c ∉ spec)
    (hadd : tm.typeAddFromFilterSpecString deleteTypeFirst spec = .ok tm') : I tm' := by
  obtain ⟨fileType, filterType, filterArgs, hsplit, hcases⟩ :=
    typeAddFromFilterSpecString_cases hadd
  have hfree : ∀ part ∈ split spec colon, c ∉ part := fun part hpart hmem =>
    hspec (mem_of_mem_split hpart _ hmem).1
  have hne : fileType ≠ [] := ne_nil_of_mem_split (s := spec) (d := colon) (by simp [hsplit])
  have hname : c ∉ fileType := hfree fileType (by simp [hsplit])
  have hargs : c ∉ filterArgs := hfree filterArgs (by simp [hsplit])
  have hbase : I (tm.specBase deleteTypeFirst fileType) := by
    cases deleteTypeFirst with
    | false => exact h
    | true => exact hI.typeDel tm fileType h
  rw [AddsFilters] at hcases
  generalize tm.specBase deleteTypeFirst fileType = base at hbase hcases
  rcases hcases with ⟨-, rfl⟩ | ⟨-, rfl⟩ | ⟨-, rfl⟩ | ⟨-, rfl⟩
  · exact hI.typeAddIs base fileType filterArgs hbase hne hname hargs
  · have hexts : ∀ ext ∈ split filterArgs comma, c ∉ ext := fun ext hext hmem =>
      hargs (mem_of_mem_split hext _ hmem).1
    clear hadd hsplit
    generalize split filterArgs comma = exts at hexts
    induction exts generalizing base with
    | nil => exact hbase
    | cons ext rest ih =>
      have hfilter : c ∉ str "." ++ ext :=
        hI.not_mem_texts (by decide) (hexts ext List.mem_cons_self)
      exact ih (base.typeAddExt fileType ext)
        (hI.typeAddIs base fileType _ hbase hne hname hfilter)
        fun e he => hexts e (List.mem_cons_of_mem _ he)
  · exact hI.globs base _ _ hbase
  · have hfilter : c ∉ str "?" ++ filterArgs := hI.not_mem_texts (by decide) hargs
    exact hI.call _ (.type fileType)
      (hI.globs _ _ _ (hI.typeAddIs base fileType _ hbase hne hname hfilter))

theorem typeAddIgnoreFile_inversion {spec : Bytes}
    (h : tm.typeAddIgnoreFileFromFilterSpecString spec = .ok tm') : ∃ tm₁,
      tm.typeAddFromFilterSpecString false (ignoreFileTypeName ++ str ":" ++ spec) = .ok tm₁ ∧
      tm' = (tm₁.notype ignoreFileTypeName).2 := by
  obtain ⟨tm₁, hadd, hnotype⟩ := exists_of_bind_eq_ok h
  exact ⟨tm₁, hadd, (Except.ok.inj hnotype).symm⟩

theorem typeAddIncludeGlob_inversion {spec : Bytes}
    (h : tm.typeAddIncludeGlobFromFilterSpecString spec = .ok tm') : ∃ tm₁,
      tm.typeAddFromFilterSpecString false (includeGlobFileTypeName ++ spec) = .ok tm₁ ∧
      tm' = (tm₁.type includeGlobFileTypeName).2 := by
  obtain ⟨tm₁, hadd, htype⟩ := exists_of_bind_eq_ok h
  exact ⟨tm₁, hadd, (Except.ok.inj htype).symm⟩

theorem split_ignoreFileSpec (spec : Bytes) :
    split (ignoreFileTypeName ++ str ":" ++ spec) colon = ignoreFileTypeName :: split spec colon := by
  rw [List.append_assoc]
  exact split_append_cons (by decide) (by decide)

theorem KeptByDefinitions.typeAddIgnoreFile (hI : KeptByDefinitions c I) {spec : Bytes} (h : I tm)
    (hspec : c ∉ spec) (hadd : tm.typeAddIgnoreFileFromFilterSpecString spec = .ok tm') :
    I tm' := by
  obtain ⟨tm₁, hspecAdd, rfl⟩ := typeAddIgnoreFile_inversion hadd
  have hspec' : c ∉ ignoreFileTypeName ++ str ":" ++ spec := hI.not_mem_texts (by decide) hspec
  exact hI.call tm₁ (.notype ignoreFileTypeName)
    (hI.typeAddFromFilterSpecString h hspec' hspecAdd)

theorem KeptByDefinitions.typeAddIncludeGlob (hI : KeptByDefinitions c I) {spec : Bytes} (h : I tm)
    (hspec : c ∉ spec) (hadd : tm.typeAddIncludeGlobFromFilterSpecString spec = .ok tm') :
    I tm' := by
  obtain ⟨tm₁, hspecAdd, rfl⟩ := typeAddIncludeGlob_inversion hadd
  have hspec' : c ∉ includeGlobFileTypeName ++ spec := hI.not_mem_texts (by decide) hspec
  exact hI.call tm₁ (.type includeGlobFileTypeName)
    (hI.typeAddFromFilterSpecString h hspec' hspecAdd)

theorem KeptByDefinitions.applyParam (hI : KeptByDefinitions c I) {p : FileTypeParam} (h : I tm)
    (hp : c ∉ p.arg) (happly : tm.applyParam p = .ok tm') : I tm' := by
  cases p with
  | typeAdd spec => exact hI.typeAddFromFilterSpecString h hp happly
  | typeSet spec => exact hI.typeAddFromFilterSpecString h hp happly
  | typeDel type =>
    obtain rfl := Except.ok.inj happly
    exact hI.typeDel tm type h
  | ignoreFile spec => exact hI.typeAddIgnoreFile h hp happly
  | exclude glob => exact hI.typeAddIgnoreFile h (hI.not_mem_texts (by decide) hp) happly
  | «include» glob => exact hI.typeAddIncludeGlob h (hI.not_mem_texts (by decide) hp) happly

theorem handleTYPELogic_invariant {front back words : List Bytes} (h : I tm)
    (hstep : ∀ w ∈ front, ∀ tm p tm', I tm → wordAction tm w = .param p →
      tm.applyParam p = .ok tm' → I tm')
    (hlogic : handleTYPELogic tm (front ++ back) = .ok (tm', words)) :
    ∃ tm₁ back', I tm₁ ∧ handleTYPELogic tm₁ back = .ok (tm', back') := by
  induction front generalizing tm words with
  | nil => exact ⟨tm, words, h, hlogic⟩
  | cons w rest ih =>
    obtain ⟨tm₁, rest', hword, hrest⟩ := handleTYPELogic_cons hlogic
    refine ih ?_ (fun w hw => hstep w (List.mem_cons_of_mem _ hw)) hrest
    rcases hword with ⟨-, rfl⟩ | ⟨p, haction, happly⟩
    · exact h
    · exact hstep w List.mem_cons_self tm p tm₁ h haction happly

theorem KeptByDefinitions.handleTYPELogic (hI : KeptByDefinitions c I) {words words' : List Bytes}
    (h : I tm) (hargs : ∀ w ∈ words, ∀ tm p, wordAction tm w = .param p → c ∉ p.arg)
    (hlogic : handleTYPELogic tm words = .ok (tm', words')) : I tm' := by
  rw [← List.append_nil words] at hlogic
  obtain ⟨tm₁, back', h₁, hnil⟩ := handleTYPELogic_invariant h
    (fun w hw tm p _ h haction happly => hI.applyParam h (hargs w hw tm p haction) happly) hlogic
  obtain ⟨rfl, -⟩ := Prod.mk.inj (Except.ok.inj hnil)
  exact h₁

theorem keptByDefinitions_wellNamed :
    KeptByDefinitions equalsSign fun tm => tm.builtinAndUserTypeMap.WellNamed where
  texts := by decide
  typeAddIs _ _ filter h hne heq _ := h.pushBack hne heq filter
  globs _ _ _ h := h
  typeDel _ type h := h.erase type
  call tm c h := by
    rw [(sameDefinitions_call tm c).builtinAndUserTypeMap]
    exact h

theorem keptByDefinitions_uncompiled : KeptByDefinitions nul Uncompiled where
  texts := by decide
  typeAddIs _ type _ h _ _ hfilter := ⟨h.1, h.2, h.3, h.definedNulFree.pushBack type hfilter,
    h.activeNulFree.pushBack type hfilter⟩
  globs _ _ _ h := ⟨h.1, h.2, h.3, h.4, h.5⟩
  typeDel _ type h := ⟨h.1, h.2, h.3, h.definedNulFree.erase type, h.activeNulFree.erase type⟩
  call _ c h := h.call c

end Definitions

theorem Reached.wellNamed (h : Reached tm) : tm.builtinAndUserTypeMap.WellNamed := by
  induction h with
  | new => exact wellNamed_builtinTypeMap
  | word w p _ hword happly ih =>
    exact keptByDefinitions_wellNamed.applyParam ih (equalsSign_not_mem_wordAction hword) happly
  | call c _ ih => exact keptByDefinitions_wellNamed.call _ c ih

section MatchingNames

/-- The first name behind `T`, if there is one, does not contain `T`. -/
def StandsAlone (tm : TypeManager) (T : Bytes) : Prop :=
  ∀ U, IsLeast {V | tm.IsDefined V ∧ T < V} U → ¬ T <:+: U

/-- The first name that is not less than `s`, if there is one, does not contain `s`. -/
def MatchesNothing (tm : TypeManager) (s : Bytes) : Prop :=
  ∀ U, IsLeast {V | tm.IsDefined V ∧ s ≤ V} U → ¬ s <:+: U

theorem getMatchingTypenameList_eq_nil_iff {s : Bytes} :
    tm.getMatchingTypenameList s = [] ↔ tm.MatchesNothing s := by
  rw [getMatchingTypenameList,
    SortedMap.takeWhile_eq_nil_iff_least (SortedMap.pairwise_keys_lowerBound _ _)]
  simp only [SortedMap.mem_keys_lowerBound_iff, decide_eq_false_iff_not]
  rfl

theorem getMatchingTypenameList_of_equalsSign (h : tm.builtinAndUserTypeMap.WellNamed)
    {s : Bytes} (hs : equalsSign ∈ s) : tm.getMatchingTypenameList s = [] := by
  by_contra hne
  obtain ⟨X, rest, hX⟩ := List.exists_cons_of_ne_nil hne
  obtain ⟨⟨filters, hf⟩, hpre⟩ := of_mem_getMatchingTypenameList (hX ▸ List.mem_cons_self)
  exact (h X filters hf).2.1 (hpre.subset hs)

theorem getMatchingTypenameList_of_isDefined (h : tm.IsDefined T) :
    ∃ rest, tm.getMatchingTypenameList T = T :: rest ∧ (rest = [] ↔ tm.StandsAlone T) := by
  obtain ⟨filters, hf⟩ := h
  obtain ⟨entries, hentries⟩ := SortedMap.lowerBound_of_find? hf
  have hsorted := SortedMap.pairwise_keys_lowerBound tm.builtinAndUserTypeMap T
  have hmem : ∀ V, V ∈ T :: entries.map (·.1) ↔ tm.IsDefined V ∧ T ≤ V := fun V => by
    have hkeys : V ∈ (tm.builtinAndUserTypeMap.lowerBound T).map (·.1) ↔ _ :=
      SortedMap.mem_keys_lowerBound_iff
    rwa [hentries] at hkeys
  rw [hentries, List.map_cons] at hsorted
  obtain ⟨hhead, hrest⟩ := List.pairwise_cons.mp hsorted
  have hset : {V | V ∈ entries.map (·.1)} = {V | tm.IsDefined V ∧ T < V} := by
    ext V
    constructor
    · intro hV
      exact ⟨((hmem V).mp (List.mem_cons_of_mem _ hV)).1, hhead V hV⟩
    · intro hV
      exact (List.mem_cons.mp ((hmem V).mpr ⟨hV.1, hV.2.le⟩)).resolve_left hV.2.ne'
  refine ⟨(entries.map (·.1)).takeWhile (T <:+: ·), ?_, ?_⟩
  · rw [getMatchingTypenameList, hentries, List.map_cons, List.takeWhile_cons_of_pos (by simp)]
  · rw [SortedMap.takeWhile_eq_nil_iff_least hrest, hset]
    simp [StandsAlone]

end MatchingNames

section TypeSelectionWords

theorem equalsSign_not_mem_longopt : ∀ d ∈ dynamicUsage, equalsSign ∉ d.longopt := by
  decide

/-- What the rewritten word is for the option parser. -/
theorem parseArgs_type {typeName : Bytes} (h : typeName ≠ []) :
    parseArgs dynamicUsage [str "--type=" ++ typeName] =
      some ([⟨.type, enable, some typeName⟩], []) := by
  have hfound : (findLongOption dynamicUsage (str "type")).map (fun d => (d.index, d.type)) =
      some (.type, enable) := by decide
  obtain ⟨d, hd, hdata⟩ := Option.map_eq_some_iff.mp hfound
  obtain ⟨hindex, htype⟩ := Prod.mk.inj hdata
  obtain ⟨ro, hro, hroindex, hrocheck⟩ := exists_rawOption (mem_of_findLongOption hd)
  have hcheck : d.checkArg = Arg.NonEmpty :=
    hrocheck.trans (checkArg_of_index rfl ro hro (hroindex.symm.trans hindex))
  have hword : str "--type=" ++ typeName = dashDash ++ (str "type" ++ equalsSign :: typeName) :=
    rfl
  have hoption : parseOptionWord dynamicUsage (str "--type=" ++ typeName) none =
      some ([⟨.type, enable, some typeName⟩], false) := by
    rw [hword, parseOptionWord, if_pos (List.prefix_append _ _)]
    refine (parseLongOption_attached equalsSign_not_mem_longopt (by decide) none).trans ?_
    rw [hd, Option.some_or, performOption]
    simp [hcheck, Arg.NonEmpty, h, hindex, htype]
  have hparam : isOptionWord (str "--type=" ++ typeName) = true := by
    simp [isOptionWord, hword, dashDash]
  rw [parseArgs, hparam, hoption]
  simp [hword, dashDash]

/-- What the word `w` does: to the state `tm` in which `HandleTYPELogic` finds it, and to the
state `tm₂` that the loop over the `--type` options has reached when it is its turn. -/
def wordEffect (tm tm₂ : TypeManager) (w : Bytes) : Except ParseExit (TypeManager × TypeManager) :=
  match handleTYPELogic tm [w] with
  | .error e => .error (.argParseException e)
  | .ok (tm', words) =>
    match parseArgs dynamicUsage words with
    | none => .error (.exit statusExUsage)
    | some (opts, _) => (optTypeLoop opts tm₂).map (tm', ·)

variable {tm₂ : TypeManager} {w X no argtxt : Bytes}

theorem wordEffect_of_rewrite (h : wordAction tm w = .rewrite (str "--type=" ++ X)) (hX : X ≠ []) :
    wordEffect tm tm₂ w = (optTypeStep tm₂ ⟨.type, enable, some X⟩).map (tm, ·) := by
  have hwords : handleTYPELogic tm [w] = .ok (tm, [str "--type=" ++ X]) := by
    rw [handleTYPELogic, h]
    rfl
  rw [wordEffect, hwords]
  dsimp only
  rw [parseArgs_type hX]
  cases hstep : optTypeStep tm₂ ⟨.type, enable, some X⟩ <;>
    simp [optTypeLoop, optionChain, hstep, Except.map]

theorem wordEffect_of_ambiguous {possibilities : Bytes}
    (h : wordAction tm w = .ambiguous possibilities) :
    wordEffect tm tm₂ w = .error (.argParseException ⟨possibilities⟩) := by
  rw [wordEffect, handleTYPELogic, h]

theorem wordEffect_of_rewrite_iff (h : wordAction tm w = .rewrite (str "--type=" ++ X))
    (hX : X ≠ []) : wordEffect tm tm₂ w = .ok (tm, tm') ↔
      optTypeStep tm₂ ⟨.type, enable, some X⟩ = .ok tm' := by
  rw [wordEffect_of_rewrite h hX]
  cases optTypeStep tm₂ ⟨.type, enable, some X⟩ <;> simp [Except.map]

theorem type_fst_iff {t : Bytes} : (tm.type t).1 = true ↔ tm.IsDefined t := by
  by_cases hdef : tm.IsDefined t
  · obtain ⟨filters, hf⟩ := hdef
    simp [type, hf, IsDefined]
  · simp [type_of_not_defined hdef, hdef]

theorem notype_fst_iff {t : Bytes} : (tm.notype t).1 = true ↔ tm.IsDefined t := by
  by_cases hdef : tm.IsDefined t
  · obtain ⟨filters, hf⟩ := hdef
    simp [notype, hf, IsDefined]
  · simp [notype_of_not_defined hdef, hdef]

theorem optTypeStep_eq_ok_iff : optTypeStep tm ⟨.type, enable, some X⟩ = .ok tm' ↔
    (str "no" <+: X ∧ tm.IsDefined (X.drop 2) ∧ tm' = (tm.notype (X.drop 2)).2) ∨
      (¬ str "no" <+: X ∧ tm.IsDefined X ∧ tm' = (tm.type X).2) := by
  by_cases hno : str "no" <+: X
  · by_cases hdef : tm.IsDefined (X.drop 2)
    · simp [optTypeStep, hno, notype_fst_iff.mpr hdef, hdef, eq_comm]
    · simp [optTypeStep, hno, mt notype_fst_iff.mp hdef, hdef]
  · by_cases hdef : tm.IsDefined X
    · simp [optTypeStep, hno, type_fst_iff.mpr hdef, hdef, eq_comm]
    · simp [optTypeStep, hno, mt type_fst_iff.mp hdef, hdef]

theorem removedTypeFilters_notype {t : Bytes} {filters : List Bytes}
    (h : tm.builtinAndUserTypeMap.find? t = some filters) :
    (tm.notype t).2.removedTypeFilters = tm.removedTypeFilters ++ filters.map (·, t) :=
  congrArg removedTypeFilters (call_notype h)

theorem removedTypeFilters_type {t : Bytes} {filters : List Bytes}
    (h : tm.builtinAndUserTypeMap.find? t = some filters) :
    (tm.type t).2.removedTypeFilters = tm.removedTypeFilters.filter (·.1 ∉ filters) :=
  congrArg removedTypeFilters (call_type h)

theorem length_removedTypeFilters_type (tm : TypeManager) (t : Bytes) :
    (tm.type t).2.removedTypeFilters.length ≤ tm.removedTypeFilters.length := by
  by_cases hdef : tm.IsDefined t
  · obtain ⟨filters, hf⟩ := hdef
    rw [removedTypeFilters_type hf]
    exact List.length_filter_le _ _
  · rw [type_of_not_defined hdef]

theorem type_ne_notype (h : tm.builtinAndUserTypeMap.WellNamed) {t u : Bytes}
    (hu : tm.IsDefined u) : (tm.type t).2 ≠ (tm.notype u).2 := by
  intro heq
  obtain ⟨filters, hf⟩ := hu
  have hle := length_removedTypeFilters_type tm t
  have hpos := List.length_pos_of_ne_nil (h u filters hf).2.2
  rw [heq, removedTypeFilters_notype hf, List.length_append, List.length_map] at hle
  omega

theorem eq_of_notype_eq (h : tm.builtinAndUserTypeMap.WellNamed) {t u : Bytes}
    (ht : tm.IsDefined t) (hu : tm.IsDefined u) (heq : (tm.notype t).2 = (tm.notype u).2) :
    t = u := by
  obtain ⟨filters, hf⟩ := ht
  obtain ⟨filters', hf'⟩ := hu
  have hremoved := congrArg removedTypeFilters heq
  rw [removedTypeFilters_notype hf, removedTypeFilters_notype hf', List.append_cancel_left_eq]
    at hremoved
  obtain ⟨f, rest, rfl⟩ := List.exists_cons_of_ne_nil (h t filters hf).2.2
  obtain ⟨f', rest', rfl⟩ := List.exists_cons_of_ne_nil (h u filters' hf').2.2
  exact (Prod.mk.inj (List.cons.inj hremoved).1).2

theorem wordEffect_of_matching {names : List Bytes}
    (h : wordAction tm w = matchedAction no argtxt names) (hnames : names ≠ [])
    (hne : ∀ X ∈ names, X ≠ []) : wordEffect tm tm₂ w = .ok (tm, tm') ↔
      ∃ X, names = [X] ∧ optTypeStep tm₂ ⟨.type, enable, some (no ++ X)⟩ = .ok tm' := by
  match names with
  | [X] =>
    have hrewrite : wordAction tm w = .rewrite (str "--type=" ++ (no ++ X)) := by
      rw [h, matchedAction, List.append_assoc]
    rw [wordEffect_of_rewrite_iff hrewrite (by simp [hne])]
    simp
  | X :: Y :: rest =>
    have hambiguous := h
    rw [matchedAction] at hambiguous
    · rw [wordEffect_of_ambiguous hambiguous]
      simp
    · simp
    · simp

theorem wordEffect_type_iff (h : tm.builtinAndUserTypeMap.WellNamed)
    (h₂ : tm₂.builtinAndUserTypeMap.WellNamed) (hdef : tm.IsDefined T) (hdef₂ : tm₂.IsDefined T) :
    wordEffect tm tm₂ (dashDash ++ T) = .ok (tm, (tm₂.type T).2) ↔
      ¬ str "no" <+: T ∧ tm.StandsAlone T := by
  obtain ⟨rest, hmatching, hrest⟩ := getMatchingTypenameList_of_isDefined hdef
  have hne : ∀ X ∈ T :: rest, X ≠ [] := fun X hX => by
    obtain ⟨filters, hf⟩ := (of_mem_getMatchingTypenameList (hmatching ▸ hX)).1
    exact (h X filters hf).1
  have haction : wordAction tm (dashDash ++ T) = matchedAction [] T (T :: rest) := by
    rw [wordAction_dashDash (hne T List.mem_cons_self), hmatching, if_pos (by simp)]
  rw [wordEffect_of_matching haction (by simp) hne, ← hrest]
  constructor
  · rintro ⟨X, hX, hstep⟩
    obtain ⟨rfl, rfl⟩ := List.cons.inj hX
    rcases optTypeStep_eq_ok_iff.mp hstep with ⟨-, hdrop, heq⟩ | ⟨hno, -, -⟩
    · exact (type_ne_notype h₂ hdrop heq).elim
    · exact ⟨hno, rfl⟩
  · rintro ⟨hno, rfl⟩
    exact ⟨T, rfl, optTypeStep_eq_ok_iff.mpr (Or.inr ⟨hno, hdef₂, rfl⟩)⟩

theorem wordEffect_notype_iff (h : tm.builtinAndUserTypeMap.WellNamed)
    (h₂ : tm₂.builtinAndUserTypeMap.WellNamed) (hdef : tm.IsDefined T) (hdef₂ : tm₂.IsDefined T) :
    wordEffect tm tm₂ (dashDash ++ (str "no" ++ T)) = .ok (tm, (tm₂.notype T).2) ↔
      tm.MatchesNothing (str "no" ++ T) ∧ tm.StandsAlone T ∨
        tm.IsDefined (str "no" ++ T) ∧ tm.StandsAlone (str "no" ++ T) := by
  have hword : str "no" ++ T ≠ [] := List.append_ne_nil_of_left_ne_nil (by decide) T
  have hdrop : (str "no" ++ T).drop 2 = T := rfl
  have hstep : optTypeStep tm₂ ⟨.type, enable, some (str "no" ++ T)⟩ = .ok (tm₂.notype T).2 :=
    optTypeStep_eq_ok_iff.mpr (Or.inl ⟨List.prefix_append _ _, hdef₂, rfl⟩)
  have hnamed : ∀ s, ∀ X ∈ tm.getMatchingTypenameList s, X ≠ [] := fun s X hX => by
    obtain ⟨filters, hf⟩ := (of_mem_getMatchingTypenameList hX).1
    exact (h X filters hf).1
  by_cases hnothing : tm.getMatchingTypenameList (str "no" ++ T) = []
  · have hundef : ¬ tm.IsDefined (str "no" ++ T) := fun hd => by
      obtain ⟨rest, hmatching, -⟩ := getMatchingTypenameList_of_isDefined hd
      simp [hmatching] at hnothing
    obtain ⟨rest, hmatching, hrest⟩ := getMatchingTypenameList_of_isDefined hdef
    have haction : wordAction tm (dashDash ++ (str "no" ++ T)) =
        matchedAction (str "no") (str "no" ++ T) (T :: rest) := by
      rw [wordAction_dashDash hword, if_neg (not_not.mpr hnothing),
        if_pos (List.prefix_append _ _), hdrop, hmatching]
    rw [wordEffect_of_matching haction (by simp) (hmatching ▸ hnamed T), ← hrest]
    simp only [getMatchingTypenameList_eq_nil_iff.mp hnothing, hundef, true_and, false_and,
      or_false]
    constructor
    · rintro ⟨X, hX, -⟩
      exact (List.cons.inj hX).2
    · rintro rfl
      exact ⟨T, rfl, hstep⟩
  · have haction : wordAction tm (dashDash ++ (str "no" ++ T)) =
        matchedAction [] (str "no" ++ T) (tm.getMatchingTypenameList (str "no" ++ T)) := by
      rw [wordAction_dashDash hword, if_pos hnothing]
    rw [wordEffect_of_matching haction hnothing (hnamed _)]
    simp only [mt getMatchingTypenameList_eq_nil_iff.mpr hnothing, false_and, false_or]
    constructor
    · rintro ⟨X, hX, hok⟩
      have hdefX := (of_mem_getMatchingTypenameList (hX ▸ List.mem_singleton_self X)).1
      rcases optTypeStep_eq_ok_iff.mp hok with ⟨⟨u, rfl⟩, hdefu, heq⟩ | ⟨-, -, heq⟩
      · obtain rfl : T = u := eq_of_notype_eq h₂ hdef₂ hdefu heq
        obtain ⟨rest, hmatching, hrest⟩ := getMatchingTypenameList_of_isDefined hdefX
        rw [hmatching] at hX
        exact ⟨hdefX, hrest.mp (List.cons.inj hX).2⟩
      · exact (type_ne_notype h₂ hdef₂ heq.symm).elim
    · rintro ⟨hd, halone⟩
      obtain ⟨rest, hmatching, hrest⟩ := getMatchingTypenameList_of_isDefined hd
      rw [hrest.mpr halone] at hmatching
      exact ⟨str "no" ++ T, hmatching, hstep⟩

/-- The words `--T` and `--noT` of a defined type call `type` and `notype` for it unless a
neighbour in the order of the names contains what they say, or the name begins with `no`. -/
theorem wordEffect_iff (h : Reached tm) (h₂ : Reached tm₂) (hdef : tm.IsDefined T)
    (hdef₂ : tm₂.IsDefined T) :
    (wordEffect tm tm₂ (dashDash ++ T) = .ok (tm, (tm₂.type T).2) ↔
        ¬ str "no" <+: T ∧ tm.StandsAlone T) ∧
      (wordEffect tm tm₂ (dashDash ++ (str "no" ++ T)) = .ok (tm, (tm₂.notype T).2) ↔
        tm.MatchesNothing (str "no" ++ T) ∧ tm.StandsAlone T ∨
          tm.IsDefined (str "no" ++ T) ∧ tm.StandsAlone (str "no" ++ T)) :=
  ⟨wordEffect_type_iff h.wellNamed h₂.wellNamed hdef hdef₂,
    wordEffect_notype_iff h.wellNamed h₂.wellNamed hdef hdef₂⟩

theorem isLeast_isDefined_new {N : Bytes} (hdef : TypeManager.new.IsDefined N) (hlt : T < N)
    (h : ∀ e ∈ builtinTypeArray, T < str e.1 → N ≤ str e.1) :
    IsLeast {V | TypeManager.new.IsDefined V ∧ T < V} N := by
  refine ⟨⟨hdef, hlt⟩, ?_⟩
  rintro V ⟨⟨filters, hfind⟩, hV⟩
  exact forall_builtinTypeMap (P := fun t _ => T < t → N ≤ t) h hfind hV

theorem wordEffect_iff_cpp :
    wordEffect .new .new (str "--cpp") = .ok (.new, (TypeManager.new.type (str "cpp")).2) ∧
      wordEffect .new .new (str "--nocpp") = .ok (.new, (TypeManager.new.notype (str "cpp")).2) := by
  have hdef : TypeManager.new.IsDefined (str "cpp") := isDefined_new (by decide)
  have hnext : IsLeast {V | TypeManager.new.IsDefined V ∧ str "cpp" < V} (str "csharp") :=
    isLeast_isDefined_new (isDefined_new (by decide)) (by decide) (by decide)
  have halone : TypeManager.new.StandsAlone (str "cpp") := fun U hU =>
    hU.unique hnext ▸ by decide
  have hnothing : TypeManager.new.getMatchingTypenameList (str "nocpp") = [] :=
    getMatchingTypenameList_new (by decide)
  have h := wordEffect_iff .new .new hdef hdef
  exact ⟨h.1.mpr ⟨by decide, halone⟩,
    h.2.mpr (Or.inl ⟨getMatchingTypenameList_eq_nil_iff.mp hnothing, halone⟩)⟩

/-- `--js` is ambiguous: `json` follows `js`. -/
theorem not_wordEffect_js : ¬ ∀ (tm tm₂ : TypeManager) (T : Bytes), Reached tm → Reached tm₂ →
    tm.IsDefined T → tm₂.IsDefined T →
    wordEffect tm tm₂ (dashDash ++ T) = .ok (tm, (tm₂.type T).2) ∧
      wordEffect tm tm₂ (dashDash ++ (str "no" ++ T)) = .ok (tm, (tm₂.notype T).2) := by
  intro hclaim
  have hdef : TypeManager.new.IsDefined (str "js") := isDefined_new (by decide)
  have hnext : IsLeast {V | TypeManager.new.IsDefined V ∧ str "js" < V} (str "json") :=
    isLeast_isDefined_new (isDefined_new (by decide)) (by decide) (by decide)
  have heffect := (hclaim .new .new (str "js") .new .new hdef hdef).1
  have halone := ((wordEffect_type_iff wellNamed_builtinTypeMap wellNamed_builtinTypeMap hdef
    hdef).mp heffect).2
  exact halone _ hnext (by decide)

end TypeSelectionWords

end TypeManager

end Ucg
