import Ucg.Lib.LastSuch
import Ucg.Lib.SortedMap
import Ucg.DirTree
import Ucg.Strings

/-! `TypeManager`: the types, what `type` and `notype` select, and the tables that the
traversal looks file names up in. -/

namespace Ucg

open ByteOrder

def builtinTypeArray : List (String × List String) := [
  ("actionscript", [".as", ".mxml"]),
  ("ada", [".ada", ".adb", ".ads"]),
  ("asm", [".asm", ".s", ".S"]),
  ("asp", [".asp"]),
  ("aspx", [".master", ".ascx", ".asmx", ".aspx", ".svc"]),
  ("autoconf", [".ac", ".in"]),
  ("automake", [".am", ".in"]),
  ("awk", [".awk"]),
  ("batch", [".bat", ".cmd"]),
  ("cc", [".c", ".h", ".xs"]),
  ("cfmx", [".cfc", ".cfm", ".cfml"]),
  ("clojure", [".clj"]),
  ("cmake", ["CMakeLists.txt", ".cmake"]),
  ("coffeescript", [".coffee"]),
  ("cpp", [".cpp", ".cc", ".cxx", ".m", ".hpp", ".hh", ".h", ".hxx"]),
  ("csharp", [".cs"]),
  ("css", [".css"]),
  ("dart", [".dart"]),
  ("delphi", [".pas", ".int", ".dfm", ".nfm", ".dof", ".dpk", ".dproj", ".groupproj",
    ".bdsgroup", ".bdsproj"]),
  ("elisp", [".el"]),
  ("elixir", [".ex", ".exs"]),
  ("erlang", [".erl", ".hrl"]),
  ("fortran", [".f", ".f77", ".f90", ".f95", ".f03", ".for", ".ftn", ".fpp"]),
  ("go", [".go"]),
  ("groovy", [".groovy", ".gtmpl", ".gpp", ".grunit", ".gradle"]),
  ("haskell", [".hs", ".lhs"]),
  ("hh", [".h"]),
  ("html", [".htm", ".html"]),
  ("jade", [".jade"]),
  ("java", [".java", ".properties"]),
  ("js", [".js"]),
  ("json", [".json"]),
  ("jsp", [".jsp", ".jspx", ".jhtm", ".jhtml"]),
  ("less", [".less"]),
  ("lisp", [".lisp", ".lsp"]),
  ("lua", [".lua", "/^#!.*\\blua(jit)?/"]),
  ("m4", [".m4"]),
  ("make", [".mk", ".mak", "makefile", "Makefile", "Makefile.Debug", "Makefile.Release"]),
  ("matlab", [".m"]),
  ("objc", [".m", ".h"]),
  ("objcpp", [".mm", ".h"]),
  ("ocaml", [".ml", ".mli"]),
  ("parrot", [".pir", ".pasm", ".pmc", ".ops", ".pod", ".pg", ".tg"]),
  ("perl", [".pl", ".pm", ".pod", ".t", ".psgi", "/^#!.*\\bperl/"]),
  ("perltest", [".t"]),
  ("php", [".php", ".phpt", ".php3", ".php4", ".php5", ".phtml", "/^#!.*\\bphp/"]),
  ("plone", [".pt", ".cpt", ".metadata", ".cpy", ".py"]),
  ("python", [".py", "/^#!.*\\bpython/"]),
  ("rake", ["Rakefile"]),
  ("rr", [".R"]),
  ("rst", [".rst"]),
  ("ruby", [".rb", ".rhtml", ".rjs", ".rxml", ".erb", ".rake", ".spec", "Rakefile",
    "/^#!.*\\bruby/"]),
  ("rust", [".rs"]),
  ("sass", [".sass", ".scss"]),
  ("scala", [".scala"]),
  ("scheme", [".scm", ".ss"]),
  ("shell", [".sh", ".bash", ".csh", ".tcsh", ".ksh", ".zsh", ".fish",
    "/^#!.*\\b(?:ba|t?c|k|z|fi)?sh\\b/"]),
  ("smalltalk", [".st"]),
  ("smarty", [".tpl"]),
  ("sql", [".sql", ".ctl"]),
  ("stylus", [".styl"]),
  ("tcl", [".tcl", ".itcl", ".itk"]),
  ("tex", [".tex", ".cls", ".sty"]),
  ("text", [".txt", "ChangeLog", "README"]),
  ("tt", [".tt", ".tt2", ".ttml"]),
  ("vb", [".bas", ".cls", ".frm", ".ctl", ".vb", ".resx"]),
  ("verilog", [".v", ".vh", ".sv"]),
  ("vhdl", [".vhd", ".vhdl"]),
  ("vim", [".vim"]),
  ("xml", [".xml", ".dtd", ".xsl", ".xslt", ".ent", "/<[?]xml/"]),
  ("yaml", [".yaml", ".yml"]),
  ("miscellaneous", [".qbk", ".w", ".ipp", ".patch", "configure"])]

abbrev TypeMap := SortedMap Bytes (List Bytes)

/-- `m[type].push_back(filter)` -/
def TypeMap.pushBack (m : TypeMap) (type filter : Bytes) : TypeMap :=
  m.alter type fun filters => filters.getD [] ++ [filter]

theorem TypeMap.find?_pushBack (m : TypeMap) (type filter t : Bytes) :
    (m.pushBack type filter).find? t =
      if t = type then some ((m.find? type).getD [] ++ [filter]) else m.find? t :=
  SortedMap.find?_alter m type t _

def TypeMap.AllFilters (m : TypeMap) (P : Bytes → Prop) : Prop :=
  ∀ t filters, m.find? t = some filters → ∀ f ∈ filters, P f

theorem TypeMap.AllFilters.pushBack {m : TypeMap} {P : Bytes → Prop} (h : m.AllFilters P)
    (type : Bytes) {filter : Bytes} (hf : P filter) : (m.pushBack type filter).AllFilters P := by
  intro t filters hfind f hmem
  rw [find?_pushBack] at hfind
  by_cases ht : t = type
  · rw [if_pos ht] at hfind
    obtain rfl := Option.some.inj hfind
    rcases List.mem_append.mp hmem with hmem | hmem
    · cases hold : m.find? type with
      | none => simp [hold] at hmem
      | some old => exact h type old hold f (by simpa [hold] using hmem)
    · rwa [List.mem_singleton.mp hmem]
  · rw [if_neg ht] at hfind
    exact h t filters hfind f hmem

theorem TypeMap.AllFilters.erase {m : TypeMap} {P : Bytes → Prop} (h : m.AllFilters P)
    (type : Bytes) : AllFilters (m.erase type) P := by
  intro t filters hfind
  rw [SortedMap.find?_erase] at hfind
  by_cases ht : t = type
  · simp [ht] at hfind
  · rw [if_neg ht] at hfind
    exact h t filters hfind

theorem TypeMap.AllFilters.insert {m : TypeMap} {P : Bytes → Prop} (h : m.AllFilters P)
    (type : Bytes) {filters : List Bytes} (hfilters : ∀ f ∈ filters, P f) :
    AllFilters (m.insert type filters) P := by
  intro t found hfind
  rw [SortedMap.find?_insert] at hfind
  by_cases ht : t = type
  · rw [if_pos ht] at hfind
    obtain rfl := Option.some.inj hfind
    cases hold : m.find? type with
    | none => exact hfilters
    | some old => exact h type old hold
  · rw [if_neg ht] at hfind
    exact h t found hfind

structure TypeManager where
  firstTypeHasBeenSeen : Bool
  builtinAndUserTypeMap : TypeMap
  activeTypeMap : TypeMap
  removedTypeFilters : List (Bytes × Bytes)
  excludeGlobs : List Bytes
  includeExcludeGlobs : List (Bytes × Bool)
  fastIncludeExtensions : List Nat
  includeExtensions : List (Bytes × Bytes)
  includedLiteralFilenames : List (Bytes × Bytes)
  includedFirstLineRegexes : List (Bytes × Bytes)

structure TypeManagerException where
  what : Bytes
  deriving DecidableEq, Repr

def builtinTypeMap : TypeMap :=
  builtinTypeArray.foldl (fun m t => m.assign (str t.1) (t.2.map str)) SortedMap.empty

theorem find?_builtinTypeMap (t : Bytes) : builtinTypeMap.find? t =
    (lastSuch (fun e => decide (str e.1 = t)) builtinTypeArray).map fun e => e.2.map str := by
  have hfold := foldl_eq_of_lastSuch (fun e : String × List String => decide (str e.1 = t))
    (fun (m : TypeMap) e => m.assign (str e.1) (e.2.map str)) (fun _ => True) (·.find? t)
    (fun e => some (e.2.map str)) (fun _ _ _ => trivial)
    (fun m e _ he => by
      rw [SortedMap.assign, SortedMap.find?_alter, if_pos (of_decide_eq_true he).symm])
    (fun m e _ he => by
      rw [SortedMap.assign, SortedMap.find?_alter, if_neg (Ne.symm (of_decide_eq_false he))])
    builtinTypeArray (s := SortedMap.empty) trivial
  refine hfold.1.trans ?_
  rw [SortedMap.find?_empty]
  cases lastSuch (fun e => decide (str e.1 = t)) builtinTypeArray <;> rfl

theorem forall_builtinTypeMap {P : Bytes → List Bytes → Prop}
    (h : ∀ e ∈ builtinTypeArray, P (str e.1) (e.2.map str)) {t : Bytes} {filters : List Bytes}
    (hfind : builtinTypeMap.find? t = some filters) : P t filters := by
  rw [find?_builtinTypeMap, Option.map_eq_some_iff] at hfind
  obtain ⟨e, hlast, rfl⟩ := hfind
  obtain ⟨hmem, ht⟩ := lastSuch_mem hlast
  exact of_decide_eq_true ht ▸ h e hmem

theorem builtinTypeMap_wellFormed {t : Bytes} {filters : List Bytes}
    (hfind : builtinTypeMap.find? t = some filters) : t ≠ [] ∧ equalsSign ∉ t ∧ colon ∉ t ∧
      filters ≠ [] ∧ ∀ f ∈ filters, nul ∉ f ∧ f.head? ≠ some 63 := by
  have h : ∀ e ∈ builtinTypeArray, str e.1 ≠ [] ∧ equalsSign ∉ str e.1 ∧ colon ∉ str e.1 ∧
      e.2.map str ≠ [] ∧ ∀ f ∈ e.2.map str, nul ∉ f ∧ f.head? ≠ some 63 := by decide
  exact forall_builtinTypeMap (P := fun t filters => t ≠ [] ∧ equalsSign ∉ t ∧ colon ∉ t ∧
    filters ≠ [] ∧ ∀ f ∈ filters, nul ∉ f ∧ f.head? ≠ some 63) h hfind

theorem find?_builtinTypeMap_cc :
    builtinTypeMap.find? (str "cc") = some [str ".c", str ".h", str ".xs"] := by
  rw [find?_builtinTypeMap]
  decide

theorem find?_builtinTypeMap_q : builtinTypeMap.find? (str "q") = none := by
  rw [find?_builtinTypeMap]
  decide

namespace TypeManager

/-- The constructor `TypeManager::TypeManager`. -/
def new : TypeManager where
  firstTypeHasBeenSeen := false
  builtinAndUserTypeMap := builtinTypeMap
  activeTypeMap := builtinTypeMap
  removedTypeFilters := []
  excludeGlobs := []
  includeExcludeGlobs := []
  fastIncludeExtensions := []
  includeExtensions := []
  includedLiteralFilenames := []
  includedFirstLineRegexes := []

variable (tm : TypeManager)

/-- What the first call of `type` does before anything else. -/
def clearActive : TypeManager :=
  if tm.firstTypeHasBeenSeen then tm
  else { tm with activeTypeMap := SortedMap.empty, firstTypeHasBeenSeen := true }

def type (typeName : Bytes) : Bool × TypeManager :=
  match tm.builtinAndUserTypeMap.find? typeName with
  | none => (false, tm)
  | some filters =>
    (true, { tm.clearActive with
      removedTypeFilters := tm.removedTypeFilters.filter (·.1 ∉ filters)
      activeTypeMap := tm.clearActive.activeTypeMap.insert typeName filters })

def notype (typeName : Bytes) : Bool × TypeManager :=
  match tm.builtinAndUserTypeMap.find? typeName with
  | none => (false, tm)
  | some filters =>
    (true, { tm with
      removedTypeFilters := tm.removedTypeFilters ++ filters.map (·, typeName)
      activeTypeMap := tm.activeTypeMap.erase typeName })

/-- The names from the first that is not less than `nameOrPrefix`, up to the first that does
not contain it. -/
def getMatchingTypenameList (nameOrPrefix : Bytes) : List Bytes :=
  ((tm.builtinAndUserTypeMap.lowerBound nameOrPrefix).map (·.1)).takeWhile (nameOrPrefix <:+: ·)

theorem of_mem_getMatchingTypenameList {tm : TypeManager} {s X : Bytes}
    (h : X ∈ tm.getMatchingTypenameList s) :
    (∃ filters, tm.builtinAndUserTypeMap.find? X = some filters) ∧ s <:+: X := by
  rw [getMatchingTypenameList] at h
  have hmem := (List.takeWhile_prefix _).subset h
  have hprefixed := List.mem_takeWhile_imp h
  exact ⟨(SortedMap.mem_keys_lowerBound_iff.mp hmem).1, of_decide_eq_true hprefixed⟩

theorem getMatchingTypenameList_new {s : Bytes} (h : ∀ e ∈ builtinTypeArray, ¬ s <:+: str e.1) :
    TypeManager.new.getMatchingTypenameList s = [] := by
  by_contra hne
  obtain ⟨X, rest, hX⟩ := List.exists_cons_of_ne_nil hne
  obtain ⟨⟨filters, hfind⟩, hinfix⟩ := of_mem_getMatchingTypenameList (hX ▸ List.mem_cons_self)
  exact forall_builtinTypeMap (P := fun t _ => ¬ s <:+: t) h hfind hinfix

def typeAddIs (type name : Bytes) : TypeManager :=
  { tm with
    builtinAndUserTypeMap := tm.builtinAndUserTypeMap.pushBack type name
    activeTypeMap := tm.activeTypeMap.pushBack type name }

def typeAddExt (type ext : Bytes) : TypeManager :=
  { tm with
    builtinAndUserTypeMap := tm.builtinAndUserTypeMap.pushBack type (dot :: ext)
    activeTypeMap := tm.activeTypeMap.pushBack type (dot :: ext) }

def typeAddGlobExclude (glob : Bytes) : TypeManager :=
  { tm with
    excludeGlobs := tm.excludeGlobs ++ [glob]
    includeExcludeGlobs := tm.includeExcludeGlobs ++ [(glob, false)] }

def typeAddGlobInclude (type glob : Bytes) : TypeManager :=
  ({ tm with
    builtinAndUserTypeMap := tm.builtinAndUserTypeMap.pushBack type (str "?" ++ glob)
    activeTypeMap := tm.activeTypeMap.pushBack type (str "?" ++ glob)
    includeExcludeGlobs := tm.includeExcludeGlobs ++ [(glob, true)] }.type type).2

def typeDel (type : Bytes) : Bool × TypeManager :=
  ((tm.builtinAndUserTypeMap.find? type).isSome,
    { tm with
      activeTypeMap := tm.activeTypeMap.erase type
      builtinAndUserTypeMap := tm.builtinAndUserTypeMap.erase type })

def typeAddFromFilterSpecString (deleteTypeFirst : Bool) (filterSpecString : Bytes) :
    Except TypeManagerException TypeManager :=
  match split filterSpecString colon with
  | [fileType, filterType, filterArgs] =>
    let tm := if deleteTypeFirst then (tm.typeDel fileType).2 else tm
    if filterType = str "is" then .ok (tm.typeAddIs fileType filterArgs)
    else if filterType = str "ext" then
      .ok ((split filterArgs comma).foldl (fun tm ext => tm.typeAddExt fileType ext) tm)
    else if filterType = str "globx" then .ok (tm.typeAddGlobExclude filterArgs)
    else if filterType = str "glob" then .ok (tm.typeAddGlobInclude fileType filterArgs)
    else .error ⟨str "Unknown filter type \"" ++ filterType ++ str "\" in type spec \"" ++
      filterSpecString ++ str "\""⟩
  | _ => .error ⟨str "Invalid filter specification \"" ++ filterSpecString ++ str "\""⟩

def ignoreFileTypeName : Bytes := str "IGNORE_FILE_TYPE"

def typeAddIgnoreFileFromFilterSpecString (filterSpecString : Bytes) :
    Except TypeManagerException TypeManager := do
  let tm ← tm.typeAddFromFilterSpecString false (ignoreFileTypeName ++ str ":" ++ filterSpecString)
  return (tm.notype ignoreFileTypeName).2

/-- The name ends with a colon, so the closing call of `type` finds no such type. -/
def includeGlobFileTypeName : Bytes := str "INCLUDE_GLOB_FILE_TYPE:"

def typeAddIncludeGlobFromFilterSpecString (filterSpecString : Bytes) :
    Except TypeManagerException TypeManager := do
  let tm ← tm.typeAddFromFilterSpecString false (includeGlobFileTypeName ++ filterSpecString)
  return (tm.type includeGlobFileTypeName).2

end TypeManager

/-- The `uint64_t` of a `microstring`: the bytes, the first in the most significant place, and
zeroes up to eight. -/
def microstring (s : Bytes) : Nat :=
  (s ++ List.replicate (8 - s.length) 0).foldl
    (fun storage (c : UInt8) => storage * 256 + c.toNat) 0

def microstringMaxSize : Nat := 8

inductive FilterKind
  | microstring
  | extension
  | firstLineRegex
  | glob
  | literal
  deriving DecidableEq, Repr

/-- The branches of `CompileTypeTables` on the first byte of a filter. -/
def filterKind (filter : Bytes) : FilterKind :=
  if filter.head? = some dot then
    if filter.length ≤ microstringMaxSize + 1 then .microstring else .extension
  else if filter.head? = some slash then .firstLineRegex
  else if str "?" <+: filter then .glob
  else .literal

namespace TypeManager

variable (tm : TypeManager)

/-- The filters of the active types that no call of `notype` has removed, with their type. -/
def compiledFilters : List (Bytes × Bytes) :=
  tm.activeTypeMap.entries.flatMap fun i =>
    (i.2.filter (· ∉ tm.removedTypeFilters.map (·.1))).map (·, i.1)

def filtersOfKind (kind : FilterKind) : List (Bytes × Bytes) :=
  tm.compiledFilters.filter (filterKind ·.1 = kind)

def uniqueMicrostringExtensions : SortedMap Nat Unit :=
  (tm.filtersOfKind .microstring).foldl (fun s j => s.insert (microstring j.1.tail) ())
    SortedMap.empty

def compileTypeTables : TypeManager :=
  { tm with
    fastIncludeExtensions := tm.uniqueMicrostringExtensions.entries.map (·.1)
    includeExtensions := tm.includeExtensions ++ tm.filtersOfKind .extension
    includedLiteralFilenames := tm.includedLiteralFilenames ++ tm.filtersOfKind .literal
    includedFirstLineRegexes := tm.includedFirstLineRegexes ++ tm.filtersOfKind .firstLineRegex }

section Lookup

variable (fnmatch : Bytes → Bytes → Bool)

def isExcludedByAnyGlob (name : Bytes) : Bool :=
  tm.excludeGlobs.any (fnmatch · name)

/-- The text from the last period, unless there is none or the name begins with it. -/
def nameExtension (name : Bytes) : Option Bytes :=
  let ext := name.rtakeWhile (· ≠ dot)
  if ext.length + 1 < name.length then some (dot :: ext) else none

def includesExtension (extPlusPeriod : Bytes) : Bool :=
  if extPlusPeriod.length ≤ microstringMaxSize + 1 then
    tm.fastIncludeExtensions.contains (microstring extPlusPeriod.tail)
  else (tm.includeExtensions.map (·.1)).contains extPlusPeriod

/-- The verdict of the last glob that matches. -/
def globVerdict (name : Bytes) : Option Bool :=
  tm.includeExcludeGlobs.foldl
    (fun verdict glob => if fnmatch glob.1 name then some glob.2 else verdict) none

def fileShouldBeScanned (name : Bytes) : Bool :=
  if (nameExtension name).any tm.includesExtension then !tm.isExcludedByAnyGlob fnmatch name
  else if (tm.includedLiteralFilenames.map (·.1)).contains name then
    !tm.isExcludedByAnyGlob fnmatch name
  else tm.globVerdict fnmatch name == some true

end Lookup

end TypeManager

end Ucg
