import Ucg.DefinitionEffects

/-! When the active types are active with their whole definition. -/

namespace Ucg

open ByteOrder Transition TypeManager

namespace TypeManager

variable {tm tm' : TypeManager} {T f : Bytes} {filters : List Bytes}

/-- Every active type is active with the filters of its definition. -/
def ActiveWhole (tm : TypeManager) : Prop :=
  ∀ t filters, tm.activeTypeMap.find? t = some filters →
    ∃ defined, tm.builtinAndUserTypeMap.find? t = some defined ∧ ∀ f, f ∈ filters ↔ f ∈ defined

theorem ActiveWhole.of_find? (h : tm.ActiveWhole)
    (hfind : ∀ t filters, tm'.activeTypeMap.find? t = some filters →
      tm.activeTypeMap.find? t = some filters ∧
        tm'.builtinAndUserTypeMap.find? t = tm.builtinAndUserTypeMap.find? t) :
    tm'.ActiveWhole := by
  intro t filters hactive
  obtain ⟨hold, hdefined⟩ := hfind t filters hactive
  rw [hdefined]
  exact h t filters hold

theorem ActiveWhole.typeDel (h : tm.ActiveWhole) (T : Bytes) : (tm.typeDel T).2.ActiveWhole := by
  refine h.of_find? fun t filters hactive => ?_
  have herased : (tm.activeTypeMap.erase T).find? t = some filters := hactive
  rw [SortedMap.find?_erase] at herased
  split_ifs at herased with ht
  exact ⟨herased, (SortedMap.find?_erase tm.builtinAndUserTypeMap T t).trans (if_neg ht)⟩

theorem ActiveWhole.specBase (h : tm.ActiveWhole) (deleteTypeFirst : Bool) (T : Bytes) :
    (tm.specBase deleteTypeFirst T).ActiveWhole := by
  cases deleteTypeFirst with
  | false => exact h
  | true => exact h.typeDel T

theorem ActiveWhole.notype (h : tm.ActiveWhole) (T : Bytes) : (tm.notype T).2.ActiveWhole := by
  have hsame := (sameDefinitions_call tm (.notype T)).builtinAndUserTypeMap
  refine h.of_find? fun t filters hactive => ⟨?_, congrArg (SortedMap.find? · t) hsame⟩
  cases hfind : tm.builtinAndUserTypeMap.find? T with
  | none => rwa [notype_of_not_defined (by simp [IsDefined, hfind])] at hactive
  | some defined =>
    have hcall : (tm.notype T).2.activeTypeMap = tm.activeTypeMap.erase T :=
      congrArg activeTypeMap (call_notype hfind)
    rw [hcall, SortedMap.find?_erase] at hactive
    split_ifs at hactive
    exact hactive

theorem activeWhole_type_of_unseen (hfind : tm.builtinAndUserTypeMap.find? T = some filters)
    (hseen : tm.firstTypeHasBeenSeen = false) : (tm.type T).2.ActiveWhole := by
  intro t found hactive
  rw [find?_activeTypeMap_type_of_unseen hfind hseen] at hactive
  split_ifs at hactive with ht
  obtain rfl := Option.some.inj hactive
  rw [builtinAndUserTypeMap_type, ht]
  exact ⟨filters, hfind, fun f => Iff.rfl⟩

theorem ActiveWhole.type (h : tm.ActiveWhole) (T : Bytes) : (tm.type T).2.ActiveWhole := by
  cases hfind : tm.builtinAndUserTypeMap.find? T with
  | none => rwa [type_of_not_defined (by simp [IsDefined, hfind])]
  | some defined =>
    cases hseen : tm.firstTypeHasBeenSeen with
    | false => exact activeWhole_type_of_unseen hfind hseen
    | true =>
      intro t filters hactive
      rw [find?_activeTypeMap_type hfind hseen] at hactive
      rw [builtinAndUserTypeMap_type]
      split_ifs at hactive with ht
      · subst ht
        cases hold : tm.activeTypeMap.find? t with
        | none =>
          obtain rfl : defined = filters := by simpa [hold] using hactive
          exact ⟨defined, hfind, fun f => Iff.rfl⟩
        | some old =>
          obtain rfl : old = filters := by simpa [hold] using hactive
          exact h t old hold
      · exact h t filters hactive

theorem isActiveFilter_type_of_defined (h : tm.ActiveWhole)
    (hfind : tm.builtinAndUserTypeMap.find? T = some filters) (hf : f ∈ filters) :
    (tm.type T).2.IsActiveFilter f := by
  cases hseen : tm.firstTypeHasBeenSeen with
  | false => exact (isActiveFilter_type_of_unseen hfind hseen).mpr hf
  | true =>
    refine ⟨T, _, (find?_activeTypeMap_type hfind hseen T).trans (if_pos rfl), ?_⟩
    cases hold : tm.activeTypeMap.find? T with
    | none => exact hf
    | some old =>
      obtain ⟨defined, hdefined, hsame⟩ := h T old hold
      obtain rfl := Option.some.inj (hfind.symm.trans hdefined)
      exact (hsame f).mpr hf

/-- A definition keeps the active types whole unless it makes an entry for a type that is defined
and not active. -/
theorem activeWhole_define_iff (h : tm.ActiveWhole) : (tm.define T filters).ActiveWhole ↔
    (tm.activeTypeMap.find? T = none → filters = [] ∨ ∀ f, tm.DefinesFilter T f → f ∈ filters) := by
  have hactive := TypeMap.find?_pushAll tm.activeTypeMap T filters
  have hdefined := TypeMap.find?_pushAll tm.builtinAndUserTypeMap T filters
  by_cases hnil : filters = []
  · refine iff_of_true (h.of_find? fun t found hfound => ?_) fun _ => Or.inl hnil
    have hpushed := hactive t
    rw [if_neg (by simp [hnil])] at hpushed
    exact ⟨hpushed.symm.trans hfound, (hdefined t).trans (by rw [if_neg (by simp [hnil])])⟩
  · rw [or_iff_right hnil]
    have hpushed : (tm.activeTypeMap.pushAll T filters).find? T =
        some ((tm.activeTypeMap.find? T).getD [] ++ filters) := (hactive T).trans (if_pos ⟨rfl, hnil⟩)
    have hdefines : (tm.builtinAndUserTypeMap.pushAll T filters).find? T =
        some ((tm.builtinAndUserTypeMap.find? T).getD [] ++ filters) := (hdefined T).trans (if_pos ⟨rfl, hnil⟩)
    constructor
    · rintro hwhole hinactive f ⟨defined, hfind, hf⟩
      obtain ⟨both, hboth, hsame⟩ := hwhole T _ hpushed
      obtain rfl : (tm.builtinAndUserTypeMap.find? T).getD [] ++ filters = both :=
        Option.some.inj (hdefines.symm.trans hboth)
      simpa [hinactive] using (hsame f).mpr (by simp [hfind, hf])
    · intro hnew t found hfound
      by_cases ht : t = T
      · subst ht
        obtain rfl := Option.some.inj (hpushed.symm.trans hfound)
        refine ⟨_, hdefines, fun f => ?_⟩
        cases hold : tm.activeTypeMap.find? t with
        | none =>
          have hcontained : f ∈ (tm.builtinAndUserTypeMap.find? t).getD [] → f ∈ filters := by
            cases hfind : tm.builtinAndUserTypeMap.find? t with
            | none => exact fun hf => absurd hf List.not_mem_nil
            | some defined => exact fun hf => hnew hold f ⟨defined, hfind, hf⟩
          simpa using hcontained
        | some old =>
          obtain ⟨defined, hfind, hsame⟩ := h t old hold
          simp [hfind, hsame f]
      · have hpushed := (hactive t).symm.trans hfound
        rw [if_neg (by simp [ht])] at hpushed
        obtain ⟨defined, hfind, hsame⟩ := h t found hpushed
        exact ⟨defined, (hdefined t).trans ((if_neg (by simp [ht])).trans hfind), hsame⟩

/-- The specification makes no entry for a type that is defined and not active, unless it selects
the type, gives no filter, or gives every filter of the type anew. -/
def SpecKeepsWhole (tm : TypeManager) (spec : Bytes) : Prop :=
  ∀ T filterType filterArgs, split spec colon = [T, filterType, filterArgs] →
    tm.activeTypeMap.find? T = none →
    (filterType = str "glob" ∧ tm.firstTypeHasBeenSeen = false) ∨
      newFilters filterType filterArgs = [] ∨
      ∀ f, tm.DefinesFilter T f → f ∈ (newFilters filterType filterArgs).map GivenFilter.stored

variable {spec filterType filterArgs : Bytes} {deleteTypeFirst : Bool}

theorem activeWhole_glob (hseen : tm.firstTypeHasBeenSeen = true) (T glob : Bytes) :
    ((tm.defineGlob T glob).type T).2.ActiveWhole ↔ (tm.define T [str "?" ++ glob]).ActiveWhole := by
  simp only [ActiveWhole, find?_activeTypeMap_glob hseen, builtinAndUserTypeMap_type]
  rfl

theorem activeWhole_spec_of_base (hbase : (tm.specBase deleteTypeFirst T).ActiveWhole)
    (hsplit : split spec colon = [T, filterType, filterArgs])
    (hadd : tm.typeAddFromFilterSpecString deleteTypeFirst spec = .ok tm') : tm'.ActiveWhole ↔
      ((tm.specBase deleteTypeFirst T).activeTypeMap.find? T = none →
        (filterType = str "glob" ∧ tm.firstTypeHasBeenSeen = false) ∨
          newFilters filterType filterArgs = [] ∨ ∀ f, (tm.specBase deleteTypeFirst T).DefinesFilter T f →
            f ∈ (newFilters filterType filterArgs).map GivenFilter.stored) := by
  have hsame := (sameDefinitions_specBase tm deleteTypeFirst T).1
  rcases typeAddFromFilterSpecString_eq hsplit hadd with ⟨hfilter, rfl⟩ | ⟨rfl, rfl⟩ | ⟨rfl, rfl⟩
  · have hne : filterType ≠ str "glob" := by rcases hfilter with rfl | rfl <;> decide
    simp only [activeWhole_define_iff hbase, List.map_eq_nil_iff, hne, false_and, false_or]
  · rw [newFilters_globx]
    exact iff_of_true (hbase.of_find? fun _ _ hactive => ⟨hactive, rfl⟩) fun _ => Or.inr (Or.inl rfl)
  · cases hseen : tm.firstTypeHasBeenSeen with
    | false =>
      refine iff_of_true ?_ fun _ => Or.inl ⟨rfl, rfl⟩
      exact activeWhole_type_of_unseen (find?_defineGlob _ T filterArgs) (hsame.trans hseen)
    | true =>
      rw [activeWhole_glob (hsame.trans hseen), activeWhole_define_iff hbase, newFilters_glob]
      simp [GivenFilter.stored]

theorem activeWhole_spec_iff (h : tm.ActiveWhole)
    (hadd : tm.typeAddFromFilterSpecString deleteTypeFirst spec = .ok tm') :
    tm'.ActiveWhole ↔ deleteTypeFirst = true ∨ tm.SpecKeepsWhole spec := by
  obtain ⟨T, filterType, filterArgs, hsplit, -⟩ := typeAddFromFilterSpecString_cases hadd
  rw [activeWhole_spec_of_base (h.specBase deleteTypeFirst T) hsplit hadd]
  cases deleteTypeFirst with
  | true =>
    refine iff_of_true (fun _ => Or.inr (Or.inr ?_)) (Or.inl rfl)
    rintro f ⟨filters, hfind, -⟩
    have herased : (tm.builtinAndUserTypeMap.erase T).find? T = some filters := hfind
    rw [SortedMap.find?_erase, if_pos rfl] at herased
    cases herased
  | false =>
    rw [or_iff_right Bool.false_ne_true, SpecKeepsWhole]
    constructor
    · intro hkeeps T' filterType' filterArgs' hsplit'
      obtain ⟨rfl, rfl, rfl⟩ : T' = T ∧ filterType' = filterType ∧ filterArgs' = filterArgs := by
        simpa [hsplit] using hsplit'.symm
      exact hkeeps
    · exact fun hkeeps => hkeeps T filterType filterArgs hsplit

/-- The condition on a state under which an operation keeps the active types whole, and a
selection brings all of its type into the tables. -/
def KeepsWhole (tm : TypeManager) : TypeOp → Prop
  | .add deleteTypeFirst spec => deleteTypeFirst = true ∨ tm.SpecKeepsWhole spec.bytes
  | .includeGlob spec => tm.SpecKeepsWhole (includeGlobFileTypeName ++ spec.bytes)
  | .type t => ∀ glob, tm.DefinesFilter t (str "?" ++ glob) → (glob, true) ∈ tm.includeExcludeGlobs
  | _ => True

/-- The filter is in one of the tables that file names are looked up in, the globs included. -/
def IsCompiled (tm : TypeManager) (f : Bytes) : Prop :=
  tm.InSearchTables f ∨ ∃ glob, f = str "?" ++ glob ∧ (glob, true) ∈ tm.includeExcludeGlobs

/-- After a selection of a type the filters of this type that are not removed are in the tables. -/
def SelectionCompiled (tm : TypeManager) (op : TypeOp) (tm' : TypeManager) : Prop :=
  ∀ t, op = .type t → tm.IsDefined t → ∀ f, tm'.DefinesFilter t f → ¬ tm'.IsRemovedFilter f →
    tm'.compileTypeTables.IsCompiled f

theorem filterKind_eq_glob_iff : filterKind f = .glob ↔ ∃ glob, f = str "?" ++ glob := by
  constructor
  · intro hkind
    by_cases hglob : str "?" <+: f
    · obtain ⟨glob, hf⟩ := hglob
      exact ⟨glob, hf.symm⟩
    · rw [filterKind] at hkind
      split_ifs at hkind
  · rintro ⟨glob, rfl⟩
    exact filterKind_glob glob

theorem isCompiled_iff (h : tm.Uncompiled) (hf : nul ∉ f) (hselected : tm.IsSelected f) :
    tm.compileTypeTables.IsCompiled f ↔
      ∀ glob, f = str "?" ++ glob → (glob, true) ∈ tm.includeExcludeGlobs := by
  have hglobs : tm.compileTypeTables.includeExcludeGlobs = tm.includeExcludeGlobs := rfl
  have htables : tm.compileTypeTables.InSearchTables f ↔ ¬ ∃ glob, f = str "?" ++ glob := by
    rw [inSearchTables_iff h hf, Ne, filterKind_eq_glob_iff]
    exact and_iff_left hselected
  rw [IsCompiled, htables, hglobs]
  constructor
  · rintro (hnone | ⟨glob, rfl, hmem⟩) glob' heq
    · exact absurd ⟨glob', heq⟩ hnone
    · rwa [← List.append_cancel_left heq]
  · intro hall
    by_cases hglob : ∃ glob, f = str "?" ++ glob
    · obtain ⟨glob, hf⟩ := hglob
      exact Or.inr ⟨glob, hf, hall glob hf⟩
    · exact Or.inl hglob

theorem selectionCompiled_type_iff (h : tm.ActiveWhole) (huncompiled : tm.Uncompiled) (t : Bytes) :
    tm.SelectionCompiled (.type t) (tm.type t).2 ↔
      ∀ glob, tm.DefinesFilter t (str "?" ++ glob) → (glob, true) ∈ tm.includeExcludeGlobs := by
  have hsame : ∀ f, (tm.type t).2.DefinesFilter t f ↔ tm.DefinesFilter t f := by
    intro f
    rw [DefinesFilter, builtinAndUserTypeMap_type, DefinesFilter]
  have hglobs : (tm.type t).2.includeExcludeGlobs = tm.includeExcludeGlobs :=
    (sameDefinitions_call tm (.type t)).includeExcludeGlobs
  have hafter : (tm.type t).2.Uncompiled := huncompiled.call (.type t)
  have hkept : ∀ f, tm.DefinesFilter t f → ¬ (tm.type t).2.IsRemovedFilter f ∧
      ((tm.type t).2.compileTypeTables.IsCompiled f ↔
        ∀ glob, f = str "?" ++ glob → (glob, true) ∈ tm.includeExcludeGlobs) := by
    rintro f ⟨filters, hfind, hf⟩
    have hremoved : ¬ (tm.type t).2.IsRemovedFilter f := fun hremoved =>
      ((isRemovedFilter_type hfind).mp hremoved).2 hf
    refine ⟨hremoved, ?_⟩
    rw [← hglobs]
    refine isCompiled_iff hafter (huncompiled.definedNulFree t filters hfind f hf) ⟨?_, hremoved⟩
    exact isActiveFilter_type_of_defined h hfind hf
  constructor
  · intro hcompiled glob hdefines
    obtain ⟨filters, hfind, hf⟩ := hdefines
    obtain ⟨hremoved, hiff⟩ := hkept _ ⟨filters, hfind, hf⟩
    exact hiff.mp (hcompiled t rfl ⟨filters, hfind⟩ _ ((hsame _).mpr ⟨filters, hfind, hf⟩) hremoved) glob rfl
  · rintro hall t' heq - f hdefines -
    obtain rfl : t = t' := TypeOp.type.inj heq
    have hdefined := (hsame f).mp hdefines
    refine (hkept f hdefined).2.mpr ?_
    rintro glob rfl
    exact hall glob hdefined

theorem find?_spec_of_ne (hsplit : split spec colon = [T, filterType, filterArgs])
    (hadd : tm.typeAddFromFilterSpecString false spec = .ok tm') {t : Bytes} (ht : t ≠ T)
    (hfind : tm'.activeTypeMap.find? t = some filters) : tm.activeTypeMap.find? t = some filters ∧
      tm'.builtinAndUserTypeMap.find? t = tm.builtinAndUserTypeMap.find? t := by
  have hkept : ∀ (m : TypeMap) new, (m.pushAll T new).find? t = m.find? t := fun m new =>
    (TypeMap.find?_pushAll m T new t).trans (if_neg fun hcond => ht hcond.1)
  rcases typeAddFromFilterSpecString_eq hsplit hadd with ⟨-, rfl⟩ | ⟨-, rfl⟩ | ⟨-, rfl⟩
  · exact ⟨(hkept _ _).symm.trans hfind, hkept _ _⟩
  · exact ⟨hfind, rfl⟩
  · rw [builtinAndUserTypeMap_type]
    refine ⟨?_, hkept _ _⟩
    have hfound : ((tm.defineGlob T filterArgs).type T).2.activeTypeMap.find? t = some filters := hfind
    cases hseen : tm.firstTypeHasBeenSeen with
    | false =>
      rw [find?_activeTypeMap_type_of_unseen (find?_defineGlob _ T filterArgs) hseen, if_neg ht] at hfound
      cases hfound
    | true =>
      rw [find?_activeTypeMap_glob hseen] at hfound
      exact (hkept _ _).symm.trans hfound

theorem ActiveWhole.ignoreFile (h : tm.ActiveWhole) {spec : Bytes}
    (hadd : tm.typeAddFromFilterSpecString false (ignoreFileTypeName ++ str ":" ++ spec) = .ok tm')
    (hdefined : ∀ t filters, tm'.activeTypeMap.find? t = some filters → tm'.IsDefined t) :
    (tm'.notype ignoreFileTypeName).2.ActiveWhole := by
  obtain ⟨T, filterType, filterArgs, hsplit, -⟩ := typeAddFromFilterSpecString_cases hadd
  obtain rfl : ignoreFileTypeName = T := by
    rw [split_ignoreFileSpec] at hsplit
    exact (List.cons.inj hsplit).1
  have hsame := (sameDefinitions_call tm' (.notype ignoreFileTypeName)).builtinAndUserTypeMap
  refine h.of_find? fun t filters hactive => ?_
  have hleft : t ≠ ignoreFileTypeName ∧ tm'.activeTypeMap.find? t = some filters := by
    by_cases hdef : tm'.IsDefined ignoreFileTypeName
    · obtain ⟨defined, hfind⟩ := hdef
      have hcall : (tm'.notype ignoreFileTypeName).2.activeTypeMap =
          tm'.activeTypeMap.erase ignoreFileTypeName := congrArg activeTypeMap (call_notype hfind)
      rw [hcall, SortedMap.find?_erase] at hactive
      split_ifs at hactive with ht
      exact ⟨ht, hactive⟩
    · rw [notype_of_not_defined hdef] at hactive
      refine ⟨?_, hactive⟩
      rintro rfl
      exact hdef (hdefined _ filters hactive)
  obtain ⟨hold, hdefines⟩ := find?_spec_of_ne hsplit hadd hleft.1 hleft.2
  exact ⟨hold, (congrArg (SortedMap.find? · t) hsame).trans hdefines⟩

end TypeManager

variable {ops : List TypeOp} {tm tm' : TypeManager} {op : TypeOp}

/-- One operation keeps the active types whole exactly when the state before says so. -/
theorem TypeStep.activeWhole_iff (h : TypeRun ops tm) (hwhole : tm.ActiveWhole) (hop : TypeStep tm op tm') :
    (tm'.ActiveWhole ∧ tm.SelectionCompiled op tm') ↔ tm.KeepsWhole op := by
  obtain ⟨huncompiled, hmaps⟩ := h.invariant
  have hnames : tm.MapsWithin fun _ _ => True := hmaps.mono fun _ _ _ => trivial
  cases op with
  | add deleteTypeFirst spec =>
    exact (and_iff_left fun t heq => nomatch heq).trans (activeWhole_spec_iff hwhole hop)
  | ignoreFile spec =>
    obtain ⟨tm₁, hadd, rfl⟩ := typeAddIgnoreFile_inversion hop
    have hmaps₁ := hnames.spec (fun _ _ _ => trivial) hadd
    refine iff_of_true ⟨hwhole.ignoreFile hadd fun t filters hfind => (hmaps₁.active t filters hfind).1,
      fun t heq => nomatch heq⟩ trivial
  | includeGlob spec =>
    obtain ⟨tm₁, hadd, rfl⟩ := typeAddIncludeGlob_inversion hop
    have hmaps₁ := hnames.spec (fun _ _ _ => trivial) hadd
    have hnone : ¬ tm₁.IsDefined includeGlobFileTypeName := fun hdef =>
      hmaps₁.colonFree _ hdef (by decide)
    rw [type_of_not_defined hnone]
    refine (and_iff_left fun t heq => nomatch heq).trans ((activeWhole_spec_iff hwhole hadd).trans ?_)
    exact or_iff_right Bool.false_ne_true
  | del typeName =>
    obtain rfl := Except.ok.inj hop
    exact iff_of_true ⟨hwhole.typeDel typeName, fun t heq => nomatch heq⟩ trivial
  | type typeName =>
    obtain rfl := Except.ok.inj hop
    exact (and_iff_right (hwhole.type typeName)).trans
      (selectionCompiled_type_iff hwhole huncompiled typeName)
  | notype typeName =>
    obtain rfl := Except.ok.inj hop
    exact iff_of_true ⟨hwhole.notype typeName, fun t heq => nomatch heq⟩ trivial

theorem activeWhole_new : TypeManager.new.ActiveWhole := fun _ filters hfind => ⟨filters, hfind, fun _ => Iff.rfl⟩

def WholeRun : List TypeOp → TypeManager → Prop :=
  Traced (· = .new) fun tm op tm' => TypeStep tm op tm' ∧ tm.KeepsWhole op

theorem wholeRun_nil : WholeRun [] .new := Traced.start rfl

/-- In every run whose operations all meet the condition the active types are whole, and after such
a run an operation keeps them whole exactly when it meets the condition. -/
theorem active_types_whole (h : WholeRun ops tm) :
    tm.ActiveWhole ∧ ∀ op tm', TypeStep tm op tm' →
      ((tm'.ActiveWhole ∧ tm.SelectionCompiled op tm') ↔ tm.KeepsWhole op) := by
  have hinvariant : TypeRun ops tm ∧ tm.ActiveWhole := by
    refine Traced.invariant (I := fun ops tm => TypeRun ops tm ∧ tm.ActiveWhole) ?_ ?_ h
    · rintro tm rfl
      exact ⟨typeRun_nil, activeWhole_new⟩
    · rintro ops tm op tm' - ⟨hrun, hwhole⟩ ⟨hop, hkeeps⟩
      exact ⟨hrun.tail hop, ((hop.activeWhole_iff hrun hwhole).mpr hkeeps).1⟩
  exact ⟨hinvariant.2, fun op tm' hop => hop.activeWhole_iff hinvariant.1 hinvariant.2⟩

theorem active_types_whole_cpp : (TypeManager.new.type (str "cpp")).2.ActiveWhole := by
  have hstep : TypeStep .new (.type (str "cpp")) (TypeManager.new.type (str "cpp")).2 := rfl
  have hkeeps : TypeManager.new.KeepsWhole (.type (str "cpp")) := by
    rintro glob ⟨filters, hfind, hf⟩
    obtain ⟨-, -, -, -, hfilters⟩ := builtinTypeMap_wellFormed hfind
    exact absurd rfl (hfilters _ hf).2
  exact (active_types_whole (wholeRun_nil.tail ⟨hstep, hkeeps⟩)).1

/-- `cpp` is selected, which clears the other types, and then `cc` is given `.foo`: `cc` is active
with `.foo` alone. -/
theorem not_active_types_whole : ¬ ∀ (ops : List TypeOp) (tm : TypeManager), TypeRun ops tm →
    tm.ActiveWhole ∧ ∀ op tm', TypeStep tm op tm' → tm.SelectionCompiled op tm' := by
  intro h
  have hsplit : split (str "cc:ext:foo") colon = [str "cc", str "ext", str "foo"] := by decide
  have htype : TypeStep .new (.type (str "cpp")) (TypeManager.new.type (str "cpp")).2 := rfl
  have hadd : TypeStep (TypeManager.new.type (str "cpp")).2 (.add false ⟨str "cc:ext:foo", by decide⟩)
      ((TypeManager.new.type (str "cpp")).2.typeAddExt (str "cc") (str "foo")) :=
    typeAddFromFilterSpecString_ext hsplit (by decide)
  have hactive : ((TypeManager.new.type (str "cpp")).2.typeAddExt (str "cc") (str "foo")).activeTypeMap.find?
      (str "cc") = some [str ".foo"] := by
    obtain ⟨filters, hcpp⟩ : TypeManager.new.IsDefined (str "cpp") := isDefined_new (by decide)
    have hcc : (TypeManager.new.type (str "cpp")).2.activeTypeMap.find? (str "cc") = none :=
      (find?_activeTypeMap_type_of_unseen hcpp rfl (str "cc")).trans (if_neg (by decide))
    refine (TypeMap.find?_pushBack _ _ _ _).trans ((if_pos rfl).trans ?_)
    rw [hcc]
    rfl
  have hdefined : ((TypeManager.new.type (str "cpp")).2.typeAddExt (str "cc")
      (str "foo")).builtinAndUserTypeMap.find? (str "cc") =
        some [str ".c", str ".h", str ".xs", str ".foo"] := by
    refine (TypeMap.find?_pushBack _ _ _ _).trans ((if_pos rfl).trans ?_)
    rw [builtinAndUserTypeMap_type]
    change some ((builtinTypeMap.find? (str "cc")).getD [] ++ _) = _
    rw [find?_builtinTypeMap_cc]
    rfl
  obtain ⟨defined, hfind, hsame⟩ := (h _ _ ((typeRun_singleton htype).tail hadd)).1 _ _ hactive
  obtain rfl := Option.some.inj (hdefined.symm.trans hfind)
  exact absurd ((hsame (str ".c")).mpr (by simp)) (by decide)

end Ucg
