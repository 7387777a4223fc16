import Ucg.FileLookup
import Ucg.Lib.Transition
import Ucg.TypeWords

/-! Any sequence of the operations of a `TypeManager`: what each operation adds under which type,
and what holds of both type maps after any sequence. -/

namespace Ucg

open ByteOrder Transition

/-- What a definition gives a type: a name or an extension with its period, looked up as it
stands, or an include glob. -/
inductive GivenFilter
  | lookup (f : Bytes)
  | glob (g : Bytes)
  deriving DecidableEq, Repr

/-- The text of the filter in the type maps. -/
def GivenFilter.stored : GivenFilter → Bytes
  | .lookup f => f
  | .glob g => str "?" ++ g

/-- The filters that the last two parts of a specification give. -/
def newFilters (filterType filterArgs : Bytes) : List GivenFilter :=
  if filterType = str "is" then [.lookup filterArgs]
  else if filterType = str "ext" then (split filterArgs comma).map fun ext => .lookup (dot :: ext)
  else if filterType = str "glob" then [.glob filterArgs]
  else []

theorem newFilters_glob (filterArgs : Bytes) : newFilters (str "glob") filterArgs = [.glob filterArgs] := by
  rw [newFilters, if_neg (by decide), if_neg (by decide), if_pos rfl]

theorem newFilters_globx (filterArgs : Bytes) : newFilters (str "globx") filterArgs = [] := by
  rw [newFilters, if_neg (by decide), if_neg (by decide), if_neg (by decide)]

/-- The type of a specification, and the filters that it gives this type. -/
def specGives (spec : Bytes) : List (Bytes × GivenFilter) :=
  match split spec colon with
  | [fileType, filterType, filterArgs] => (newFilters filterType filterArgs).map (fileType, ·)
  | _ => []

inductive TypeOp
  | add (deleteTypeFirst : Bool) (spec : CString)
  | ignoreFile (spec : CString)
  | includeGlob (spec : CString)
  | del (typeName : Bytes)
  | type (typeName : Bytes)
  | notype (typeName : Bytes)

def TypeOp.gives : TypeOp → List (Bytes × GivenFilter)
  | .add _ spec => specGives spec.bytes
  | .ignoreFile spec => specGives (TypeManager.ignoreFileTypeName ++ str ":" ++ spec.bytes)
  | .includeGlob spec => specGives (TypeManager.includeGlobFileTypeName ++ spec.bytes)
  | _ => []

def TypeOp.apply (tm : TypeManager) : TypeOp → Except TypeManagerException TypeManager
  | .add deleteTypeFirst spec => tm.typeAddFromFilterSpecString deleteTypeFirst spec.bytes
  | .ignoreFile spec => tm.typeAddIgnoreFileFromFilterSpecString spec.bytes
  | .includeGlob spec => tm.typeAddIncludeGlobFromFilterSpecString spec.bytes
  | .del typeName => .ok (tm.typeDel typeName).2
  | .type typeName => .ok (tm.type typeName).2
  | .notype typeName => .ok (tm.notype typeName).2

/-- An operation that returns. One that throws leaves the state as it is, or as a deletion of the
type leaves it. -/
def TypeStep (tm : TypeManager) (op : TypeOp) (tm' : TypeManager) : Prop := op.apply tm = .ok tm'

def TypeRun : List TypeOp → TypeManager → Prop := Traced (· = .new) TypeStep

/-- The filter is built in under the type, or an operation gave it. -/
def Given (ops : List TypeOp) (type : Bytes) (f : GivenFilter) : Prop :=
  (∃ filters, builtinTypeMap.find? type = some filters ∧ ∃ text ∈ filters, f = .lookup text) ∨
    ∃ op ∈ ops, (type, f) ∈ op.gives

namespace TypeMap

/-- `m[type].push_back(filter)` for each of the filters. -/
def pushAll (m : TypeMap) (type : Bytes) (filters : List Bytes) : TypeMap :=
  filters.foldl (·.pushBack type ·) m

theorem find?_pushAll (m : TypeMap) (type : Bytes) (filters : List Bytes) (t : Bytes) :
    (m.pushAll type filters).find? t =
      if t = type ∧ filters ≠ [] then some ((m.find? type).getD [] ++ filters) else m.find? t := by
  induction filters generalizing m with
  | nil => simp [pushAll]
  | cons f rest ih =>
    have hcons : m.pushAll type (f :: rest) = (m.pushBack type f).pushAll type rest := rfl
    rw [hcons, ih, find?_pushBack, find?_pushBack, if_pos rfl]
    by_cases ht : t = type
    · by_cases hrest : rest = [] <;> simp [ht, hrest]
    · simp [ht]

end TypeMap

namespace TypeManager

variable {tm tm' : TypeManager} {fileType filterType filterArgs : Bytes}

/-- The filters are appended to the type in both maps. -/
def define (tm : TypeManager) (type : Bytes) (filters : List Bytes) : TypeManager :=
  { tm with
    builtinAndUserTypeMap := tm.builtinAndUserTypeMap.pushAll type filters
    activeTypeMap := tm.activeTypeMap.pushAll type filters }

theorem foldl_typeAddExt (tm : TypeManager) (type : Bytes) (exts : List Bytes) :
    exts.foldl (fun tm ext => tm.typeAddExt type ext) tm = tm.define type (exts.map (dot :: ·)) := by
  induction exts generalizing tm with
  | nil => rfl
  | cons ext rest ih =>
    rw [List.foldl_cons, ih]
    rfl

/-- The glob of a specification, which is matched before any type is looked at. -/
def addGlob (tm : TypeManager) (glob : Bytes) (isInclude : Bool) : TypeManager :=
  { tm with includeExcludeGlobs := tm.includeExcludeGlobs ++ [(glob, isInclude)] }

/-- What an include glob makes of the maps and globs, before its type is selected. -/
def defineGlob (tm : TypeManager) (T glob : Bytes) : TypeManager :=
  (tm.define T [str "?" ++ glob]).addGlob glob true

theorem typeAddGlobInclude_eq (tm : TypeManager) (T glob : Bytes) :
    tm.typeAddGlobInclude T glob = ((tm.defineGlob T glob).type T).2 := rfl

/-- What a specification does: a lookup filter or several, an exclude glob, or an include glob
and a selection of the type. -/
theorem typeAddFromFilterSpecString_eq {deleteTypeFirst : Bool} {spec : Bytes}
    (hsplit : split spec colon = [fileType, filterType, filterArgs])
    (h : tm.typeAddFromFilterSpecString deleteTypeFirst spec = .ok tm') :
    ((filterType = str "is" ∨ filterType = str "ext") ∧
      tm' = (tm.specBase deleteTypeFirst fileType).define fileType
        ((newFilters filterType filterArgs).map GivenFilter.stored)) ∨
    (filterType = str "globx" ∧
      tm' = (tm.specBase deleteTypeFirst fileType).typeAddGlobExclude filterArgs) ∨
    (filterType = str "glob" ∧
      tm' = (((tm.specBase deleteTypeFirst fileType).defineGlob fileType filterArgs).type
        fileType).2) := by
  rcases typeAddFromFilterSpecString_of_split hsplit h with ⟨rfl, rfl⟩ | ⟨rfl, rfl⟩ | ⟨hglobx, rfl⟩ | ⟨hglob, rfl⟩
  · exact Or.inl ⟨Or.inl rfl, rfl⟩
  · refine Or.inl ⟨Or.inr rfl, ?_⟩
    have hne : str "ext" ≠ str "is" := by decide
    rw [foldl_typeAddExt, newFilters, if_neg hne, if_pos rfl, List.map_map]
    rfl
  · exact Or.inr (Or.inl ⟨hglobx, rfl⟩)
  · exact Or.inr (Or.inr ⟨hglob, rfl⟩)

/-- The filters in both maps are as `G` says for their type, an active type is defined, and no
name contains a colon. -/
structure MapsWithin (G : Bytes → Bytes → Prop) (tm : TypeManager) : Prop where
  colonFree : ∀ t, tm.IsDefined t → colon ∉ t
  defined : ∀ t filters, tm.builtinAndUserTypeMap.find? t = some filters → ∀ f ∈ filters, G t f
  active : ∀ t filters, tm.activeTypeMap.find? t = some filters →
    tm.IsDefined t ∧ ∀ f ∈ filters, G t f

namespace MapsWithin

variable {G G' : Bytes → Bytes → Prop} {type : Bytes} {filters : List Bytes}

theorem mono (h : MapsWithin G tm) (hG : ∀ t f, G t f → G' t f) : MapsWithin G' tm where
  colonFree := h.colonFree
  defined t filters hfind f hf := hG t f (h.defined t filters hfind f hf)
  active t filters hfind := ⟨(h.active t filters hfind).1,
    fun f hf => hG t f ((h.active t filters hfind).2 f hf)⟩

theorem of_maps (h : MapsWithin G tm) (hdefined : tm'.builtinAndUserTypeMap = tm.builtinAndUserTypeMap)
    (hactive : tm'.activeTypeMap = tm.activeTypeMap) : MapsWithin G tm' where
  colonFree t ht := h.colonFree t (by rwa [IsDefined, ← hdefined])
  defined := by rw [hdefined]; exact h.defined
  active t := by rw [hactive, IsDefined, hdefined]; exact h.active t

theorem pushAll {m : TypeMap} (h : ∀ t filters, m.find? t = some filters → ∀ f ∈ filters, G t f)
    (hG : ∀ f ∈ filters, G type f) :
    ∀ t found, (m.pushAll type filters).find? t = some found → ∀ f ∈ found, G t f := by
  intro t found hfind f hf
  rw [TypeMap.find?_pushAll] at hfind
  split_ifs at hfind with hcond
  · obtain rfl := Option.some.inj hfind
    rw [hcond.1]
    rcases List.mem_append.mp hf with hf | hf
    · cases hold : m.find? type with
      | none => simp [hold] at hf
      | some old => exact h type old hold f (by simpa [hold] using hf)
    · exact hG f hf
  · exact h t found hfind f hf

theorem isDefined_define {t : Bytes} : (tm.define type filters).IsDefined t ↔
    tm.IsDefined t ∨ (t = type ∧ filters ≠ []) := by
  rw [IsDefined, TypeManager.define, TypeMap.find?_pushAll]
  split_ifs with hcond
  · exact iff_of_true ⟨_, rfl⟩ (Or.inr hcond)
  · rw [or_iff_left hcond]
    rfl

theorem define (h : MapsWithin G tm) (hcolon : colon ∉ type) (hG : ∀ f ∈ filters, G type f) :
    MapsWithin G (tm.define type filters) where
  colonFree t ht := by
    rcases isDefined_define.mp ht with ht | ⟨rfl, -⟩
    · exact h.colonFree t ht
    · exact hcolon
  defined := pushAll h.defined hG
  active t found hfind := by
    refine ⟨isDefined_define.mpr ?_, pushAll (fun t f hfind => (h.active t f hfind).2) hG t found hfind⟩
    have hfound : (tm.activeTypeMap.pushAll type filters).find? t = some found := hfind
    rw [TypeMap.find?_pushAll] at hfound
    split_ifs at hfound with hcond
    · exact Or.inr hcond
    · exact Or.inl (h.active t found hfound).1

theorem typeDel (h : MapsWithin G tm) (type : Bytes) :
    MapsWithin (fun t f => t ≠ type ∧ G t f) (tm.typeDel type).2 := by
  have hkept : ∀ (m : TypeMap) t filters, (m.erase type).find? t = some filters →
      t ≠ type ∧ m.find? t = some filters := by
    intro m t filters hfind
    rw [SortedMap.find?_erase] at hfind
    split_ifs at hfind with ht
    exact ⟨ht, hfind⟩
  refine ⟨fun t ht => ?_, fun t filters hfind f hf => ?_, fun t filters hfind => ?_⟩
  · obtain ⟨filters, hfind⟩ := ht
    exact h.colonFree t ⟨filters, (hkept _ t filters hfind).2⟩
  · obtain ⟨ht, hold⟩ := hkept _ t filters hfind
    exact ⟨ht, h.defined t filters hold f hf⟩
  · obtain ⟨ht, hold⟩ := hkept tm.activeTypeMap t filters hfind
    obtain ⟨⟨defined, hdef⟩, hG⟩ := h.active t filters hold
    refine ⟨⟨defined, ?_⟩, fun f hf => ⟨ht, hG f hf⟩⟩
    change (tm.builtinAndUserTypeMap.erase type).find? t = some defined
    rw [SortedMap.find?_erase, if_neg ht, hdef]

theorem call (h : MapsWithin G tm) (c : TypeCall) : MapsWithin G (tm.call c) := by
  have hsame := (sameDefinitions_call tm c).builtinAndUserTypeMap
  refine ⟨fun t ht => h.colonFree t (by rwa [IsDefined, ← hsame]), by rw [hsame]; exact h.defined, ?_⟩
  intro t found hfind
  rw [IsDefined, hsame]
  by_cases hdef : tm.IsDefined c.typeName
  · obtain ⟨filters, hf⟩ := hdef
    cases c with
    | type u =>
      have hfound : (tm.clearActive.activeTypeMap.insert u filters).find? t = some found := by
        rwa [call_type (t := u) hf] at hfind
      have hkept : ∀ v old, tm.clearActive.activeTypeMap.find? v = some old →
          tm.IsDefined v ∧ ∀ f ∈ old, G v f := by
        intro v old hold
        cases hseen : tm.firstTypeHasBeenSeen with
        | true => exact h.active v old (by rwa [clearActive_of_seen hseen] at hold)
        | false => simp [find?_clearActive hseen] at hold
      rw [SortedMap.find?_insert] at hfound
      split_ifs at hfound with ht
      · subst ht
        refine ⟨⟨filters, hf⟩, ?_⟩
        obtain rfl := Option.some.inj hfound
        cases hold : tm.clearActive.activeTypeMap.find? t with
        | none => exact h.defined t filters hf
        | some old => exact (hkept t old hold).2
      · exact hkept t found hfound
    | notype u =>
      rw [call_notype (t := u) hf] at hfind
      have hfound : (tm.activeTypeMap.erase u).find? t = some found := hfind
      rw [SortedMap.find?_erase] at hfound
      split_ifs at hfound
      exact h.active t found hfound
  · rw [call_of_not_defined hdef] at hfind
    exact h.active t found hfind

theorem specBase (h : MapsWithin G tm) (deleteTypeFirst : Bool) (fileType : Bytes) :
    MapsWithin G (tm.specBase deleteTypeFirst fileType) := by
  cases deleteTypeFirst with
  | false => exact h
  | true => exact (h.typeDel fileType).mono fun _ _ hG => hG.2

theorem add {deleteTypeFirst : Bool} {spec : Bytes}
    (hsplit : split spec colon = [fileType, filterType, filterArgs])
    (hbase : MapsWithin G (tm.specBase deleteTypeFirst fileType))
    (hG : ∀ t g, (t, g) ∈ specGives spec → G t g.stored)
    (hadd : tm.typeAddFromFilterSpecString deleteTypeFirst spec = .ok tm') : MapsWithin G tm' := by
  have hcolon : colon ∉ fileType := by
    have hpart : fileType ∈ split spec colon := by simp [hsplit]
    exact fun hmem => (mem_of_mem_split hpart _ hmem).2 rfl
  have hgives : ∀ g ∈ newFilters filterType filterArgs, G fileType g.stored := by
    intro g hg
    refine hG fileType g ?_
    simpa [specGives, hsplit] using hg
  rcases typeAddFromFilterSpecString_eq hsplit hadd with ⟨-, rfl⟩ | ⟨-, rfl⟩ | ⟨rfl, rfl⟩
  · refine hbase.define hcolon fun f hf => ?_
    obtain ⟨g, hg, rfl⟩ := List.mem_map.mp hf
    exact hgives g hg
  · exact hbase.of_maps rfl rfl
  · have hglob : ∀ f ∈ [str "?" ++ filterArgs], G fileType f := by
      intro f hf
      rw [List.mem_singleton.mp hf]
      exact hgives (.glob filterArgs) (by simp [newFilters_glob])
    have hadded : MapsWithin G (((tm.specBase deleteTypeFirst fileType).define fileType
        [str "?" ++ filterArgs]).addGlob filterArgs true) :=
      (hbase.define hcolon hglob).of_maps rfl rfl
    exact hadded.call (.type fileType)

theorem spec (h : MapsWithin G tm) {deleteTypeFirst : Bool} {spec : Bytes}
    (hG : ∀ t g, (t, g) ∈ specGives spec → G t g.stored)
    (hadd : tm.typeAddFromFilterSpecString deleteTypeFirst spec = .ok tm') : MapsWithin G tm' := by
  obtain ⟨fileType, filterType, filterArgs, hsplit, -⟩ := typeAddFromFilterSpecString_cases hadd
  exact add hsplit (h.specBase deleteTypeFirst fileType) hG hadd

theorem step (h : MapsWithin G tm) {op : TypeOp} (hG : ∀ t g, (t, g) ∈ op.gives → G t g.stored)
    (hop : TypeStep tm op tm') : MapsWithin G tm' := by
  cases op with
  | add deleteTypeFirst spec => exact h.spec hG hop
  | ignoreFile spec =>
    obtain ⟨tm₁, hadd, rfl⟩ := typeAddIgnoreFile_inversion hop
    exact (h.spec hG hadd).call (.notype ignoreFileTypeName)
  | includeGlob spec =>
    obtain ⟨tm₁, hadd, rfl⟩ := typeAddIncludeGlob_inversion hop
    exact (h.spec hG hadd).call (.type includeGlobFileTypeName)
  | del typeName =>
    obtain rfl := Except.ok.inj hop
    exact (h.typeDel typeName).mono fun _ _ hG => hG.2
  | type typeName =>
    obtain rfl := Except.ok.inj hop
    exact h.call (.type typeName)
  | notype typeName =>
    obtain rfl := Except.ok.inj hop
    exact h.call (.notype typeName)

end MapsWithin

section Selected

variable {T f : Bytes} {filters : List Bytes}

theorem isRemovedFilter_type (hfind : tm.builtinAndUserTypeMap.find? T = some filters) :
    (tm.type T).2.IsRemovedFilter f ↔ tm.IsRemovedFilter f ∧ f ∉ filters := by
  simp [IsRemovedFilter, removedTypeFilters_type hfind, and_comm]

theorem find?_activeTypeMap_type_of_unseen (hfind : tm.builtinAndUserTypeMap.find? T = some filters)
    (hseen : tm.firstTypeHasBeenSeen = false) (t : Bytes) :
    (tm.type T).2.activeTypeMap.find? t = if t = T then some filters else none := by
  change (tm.call (.type T)).activeTypeMap.find? t = _
  rw [call_type hfind]
  change (tm.clearActive.activeTypeMap.insert T filters).find? t = _
  rw [SortedMap.find?_insert, find?_clearActive hseen, find?_clearActive hseen, Option.getD_none]

theorem isActiveFilter_type_of_unseen (hfind : tm.builtinAndUserTypeMap.find? T = some filters)
    (hseen : tm.firstTypeHasBeenSeen = false) : (tm.type T).2.IsActiveFilter f ↔ f ∈ filters := by
  simp only [IsActiveFilter, find?_activeTypeMap_type_of_unseen hfind hseen]
  constructor
  · rintro ⟨t, found, hfound, hf⟩
    split_ifs at hfound
    rwa [Option.some.inj hfound]
  · exact fun hf => ⟨T, filters, if_pos rfl, hf⟩

end Selected

end TypeManager

open TypeManager

theorem TypeStep.uncompiled {tm tm' : TypeManager} {op : TypeOp} (h : tm.Uncompiled) (hop : TypeStep tm op tm') :
    tm'.Uncompiled := by
  have hkept := keptByDefinitions_uncompiled
  cases op with
  | add deleteTypeFirst spec => exact hkept.typeAddFromFilterSpecString h spec.nulFree hop
  | ignoreFile spec => exact hkept.typeAddIgnoreFile h spec.nulFree hop
  | includeGlob spec => exact hkept.typeAddIncludeGlob h spec.nulFree hop
  | del typeName =>
    obtain rfl := Except.ok.inj hop
    exact hkept.typeDel tm typeName h
  | type typeName =>
    obtain rfl := Except.ok.inj hop
    exact hkept.call tm (.type typeName) h
  | notype typeName =>
    obtain rfl := Except.ok.inj hop
    exact hkept.call tm (.notype typeName) h

/-- What a filter in the maps of a run comes from. -/
def GivenText (ops : List TypeOp) (type text : Bytes) : Prop := ∃ f, Given ops type f ∧ f.stored = text

theorem colonFree_builtinTypeMap : ∀ t, TypeManager.new.IsDefined t → colon ∉ t := by
  rintro t ⟨filters, hfind⟩
  obtain ⟨-, -, hcolon, -⟩ := builtinTypeMap_wellFormed hfind
  exact hcolon

theorem mapsWithin_new : MapsWithin (GivenText []) .new := by
  have hgiven : ∀ t filters, builtinTypeMap.find? t = some filters → ∀ f ∈ filters, GivenText [] t f :=
    fun t filters hfind f hf => ⟨.lookup f, Or.inl ⟨filters, hfind, f, hf, rfl⟩, rfl⟩
  exact ⟨colonFree_builtinTypeMap, hgiven,
    fun t filters hfind => ⟨⟨filters, hfind⟩, hgiven t filters hfind⟩⟩

theorem Given.append {ops : List TypeOp} {type : Bytes} {f : GivenFilter} (h : Given ops type f)
    (op : TypeOp) : Given (ops ++ [op]) type f :=
  h.imp_right fun ⟨op', hop', hf⟩ => ⟨op', List.mem_append_left _ hop', hf⟩

theorem TypeRun.invariant {ops : List TypeOp} {tm : TypeManager} (h : TypeRun ops tm) :
    tm.Uncompiled ∧ tm.MapsWithin (GivenText ops) := by
  refine Traced.invariant (I := fun ops tm => tm.Uncompiled ∧ tm.MapsWithin (GivenText ops)) ?_ ?_ h
  · rintro tm rfl
    exact ⟨onlyDefined_new.uncompiled, mapsWithin_new⟩
  · rintro ops tm op tm' - ⟨huncompiled, hmaps⟩ hop
    refine ⟨hop.uncompiled huncompiled, MapsWithin.step (hmaps.mono ?_) ?_ hop⟩
    · rintro t text ⟨f, hf, rfl⟩
      exact ⟨f, hf.append op, rfl⟩
    · intro t f hf
      exact ⟨f, Or.inr ⟨op, List.mem_append_right _ (List.mem_singleton_self op), hf⟩, rfl⟩

/-- `fnmatch` on the globs that are a star and plain text. -/
def fnmatchStar (glob name : Bytes) : Bool := glob.head? = some 42 && decide (glob.tail <:+ name)

theorem typeRun_nil : TypeRun [] .new := Traced.start rfl

theorem typeRun_singleton {op : TypeOp} {tm : TypeManager} (h : TypeStep .new op tm) : TypeRun [op] tm :=
  typeRun_nil.tail h

theorem typeAddFromFilterSpecString_glob {tm : TypeManager} {spec T glob : Bytes}
    (hsplit : split spec colon = [T, str "glob", glob]) :
    tm.typeAddFromFilterSpecString false spec = .ok (tm.typeAddGlobInclude T glob) := by
  rw [typeAddFromFilterSpecString, hsplit]
  rfl

theorem split_globSpec : split (str "q:glob:*.q") colon = [str "q", str "glob", str "*.q"] := by
  decide

theorem typeStep_globSpec : TypeStep .new (.add false ⟨str "q:glob:*.q", by decide⟩)
    (TypeManager.new.typeAddGlobInclude (str "q") (str "*.q")) :=
  typeAddFromFilterSpecString_glob split_globSpec

theorem typeAddFromFilterSpecString_ext {tm : TypeManager} {spec T ext : Bytes}
    (hsplit : split spec colon = [T, str "ext", ext]) (hext : split ext comma = [ext]) :
    tm.typeAddFromFilterSpecString false spec = .ok (tm.typeAddExt T ext) := by
  have hne : str "ext" ≠ str "is" := by decide
  rw [typeAddFromFilterSpecString, hsplit]
  dsimp only
  rw [if_neg hne, if_pos rfl, hext]
  rfl

end Ucg
