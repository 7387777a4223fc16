import Ucg.OptionParser
import Ucg.TypeManager

/-! `ArgParse`: the option table, the words that `HandleTYPELogic` acts on, and `Parse`. -/

namespace Ucg

open ByteOrder

inductive OptIndex
  | unknown
  | handleCase
  | literal
  | wordRegex
  | color
  | prefixFile
  | nullsep
  | ignoreDir
  | ignoreFile
  | «include»
  | exclude
  | follow
  | recurseSubdirs
  | onlyKnownTypes
  | type
  | noenv
  | typeSet
  | typeAdd
  | typeDel
  | perfDirjobs
  | perfScanjobs
  | help
  | helpTypes
  | usage
  | version
  | lineNumber
  | column
  | testLogAll
  | testNoenvUser
  | testUseMmap
  deriving DecidableEq, Repr

section Integers

def isSpace (c : UInt8) : Bool := c = 32 ∨ (9 ≤ c ∧ c ≤ 13)

def isDigit (c : UInt8) : Bool := 48 ≤ c ∧ c ≤ 57

def decimalValue (digits : Bytes) : Nat :=
  digits.foldl (fun n c => n * 10 + (c.toNat - 48)) 0

/-- `strtol` in base ten. `none` is a text that begins with no number. -/
def strtol (s : Bytes) : Option Int :=
  let text := s.dropWhile isSpace
  let unsigned := if text.head? = some dash ∨ text.head? = some 43 then text.tail else text
  match unsigned.takeWhile isDigit with
  | [] => none
  | digits =>
    some (if text.head? = some dash then -(decimalValue digits : Int) else decimalValue digits)

def stol (s : Bytes) : Option Int :=
  (strtol s).filter fun n => -9223372036854775808 ≤ n ∧ n ≤ 9223372036854775807

def stoi (s : Bytes) : Option Int :=
  (strtol s).filter fun n => -2147483648 ≤ n ∧ n ≤ 2147483647

end Integers

namespace Arg

def Unknown (_ : Option Bytes) : ArgStatus := .illegal

def None (_ : Option Bytes) : ArgStatus := .none

def NonEmpty (arg : Option Bytes) : ArgStatus :=
  if arg.any (· ≠ []) then .ok else .illegal

def IntegerGreater (limit : Int) (arg : Option Bytes) : ArgStatus :=
  if (arg.bind stol).any (limit < ·) then .ok else .illegal

end Arg

section OptionTable

def disable : Nat := 0

def enable : Nat := 1

def ignoreCase : Nat := 1

def smartCase : Nat := 2

def noSmartCase : Nat := 3

structure PreDescriptor where
  index : OptIndex
  type : Nat
  notype : Nat := 0
  shortopts : String
  longopts : String
  checkArg : Option Bytes → ArgStatus
  isBracketNo : Bool := false

def rawOptions : List PreDescriptor := [
  { index := .unknown, type := 0, shortopts := "", longopts := "", checkArg := Arg.Unknown },
  { index := .handleCase, type := smartCase, notype := noSmartCase, shortopts := "",
    longopts := "[no]smart-case", checkArg := Arg.None, isBracketNo := true },
  { index := .handleCase, type := ignoreCase, shortopts := "i", longopts := "ignore-case",
    checkArg := Arg.None },
  { index := .wordRegex, type := 0, shortopts := "w", longopts := "word-regexp",
    checkArg := Arg.None },
  { index := .literal, type := 0, shortopts := "Q", longopts := "literal", checkArg := Arg.None },
  { index := .prefixFile, type := enable, shortopts := "H", longopts := "with-filename",
    checkArg := Arg.None },
  { index := .prefixFile, type := disable, shortopts := "h", longopts := "no-with-filename",
    checkArg := Arg.None },
  { index := .lineNumber, type := enable, shortopts := "n", longopts := "line-number",
    checkArg := Arg.None },
  { index := .lineNumber, type := disable, shortopts := "", longopts := "no-line-number",
    checkArg := Arg.None },
  { index := .column, type := enable, shortopts := "", longopts := "column",
    checkArg := Arg.None },
  { index := .column, type := disable, shortopts := "", longopts := "nocolumn",
    checkArg := Arg.None },
  { index := .color, type := enable, shortopts := "", longopts := "color,colour",
    checkArg := Arg.None },
  { index := .color, type := disable, shortopts := "", longopts := "nocolor,nocolour",
    checkArg := Arg.None },
  { index := .nullsep, type := enable, shortopts := "", longopts := "null", checkArg := Arg.None },
  { index := .ignoreDir, type := enable, notype := disable, shortopts := "",
    longopts := "[no]ignore-dir,[no]ignore-directory", checkArg := Arg.NonEmpty,
    isBracketNo := true },
  { index := .include, type := 0, shortopts := "", longopts := "include",
    checkArg := Arg.NonEmpty },
  { index := .exclude, type := 0, shortopts := "", longopts := "exclude,ignore",
    checkArg := Arg.NonEmpty },
  { index := .ignoreFile, type := 0, shortopts := "", longopts := "ignore-file",
    checkArg := Arg.NonEmpty },
  { index := .recurseSubdirs, type := enable, shortopts := "r,R", longopts := "recurse",
    checkArg := Arg.None },
  { index := .recurseSubdirs, type := disable, shortopts := "", longopts := "no-recurse",
    checkArg := Arg.None },
  { index := .follow, type := enable, notype := disable, shortopts := "",
    longopts := "[no]follow", checkArg := Arg.None, isBracketNo := true },
  { index := .onlyKnownTypes, type := enable, shortopts := "k", longopts := "known-types",
    checkArg := Arg.None },
  { index := .type, type := enable, shortopts := "", longopts := "type",
    checkArg := Arg.NonEmpty },
  { index := .typeSet, type := 0, shortopts := "", longopts := "type-set",
    checkArg := Arg.NonEmpty },
  { index := .typeAdd, type := 0, shortopts := "", longopts := "type-add",
    checkArg := Arg.NonEmpty },
  { index := .typeDel, type := 0, shortopts := "", longopts := "type-del",
    checkArg := Arg.NonEmpty },
  { index := .perfDirjobs, type := 0, shortopts := "", longopts := "dirjobs",
    checkArg := Arg.IntegerGreater 0 },
  { index := .perfScanjobs, type := 0, shortopts := "j", longopts := "jobs",
    checkArg := Arg.IntegerGreater 0 },
  { index := .noenv, type := 0, shortopts := "", longopts := "noenv", checkArg := Arg.None },
  { index := .help, type := 0, shortopts := "?", longopts := "help", checkArg := Arg.None },
  { index := .helpTypes, type := 0, shortopts := "", longopts := "help-types,list-file-types",
    checkArg := Arg.None },
  { index := .usage, type := 0, shortopts := "", longopts := "usage", checkArg := Arg.None },
  { index := .version, type := 0, shortopts := "V", longopts := "version", checkArg := Arg.None },
  { index := .testLogAll, type := 0, shortopts := "", longopts := "test-log-all",
    checkArg := Arg.None },
  { index := .testNoenvUser, type := 0, shortopts := "", longopts := "test-noenv-user",
    checkArg := Arg.None },
  { index := .testUseMmap, type := 0, shortopts := "", longopts := "test-use-mmap",
    checkArg := Arg.None }]

namespace PreDescriptor

variable (ro : PreDescriptor)

/-- The long names, without the `[no]` in front of each name of a bracket-no option. -/
def longAliases : List Bytes :=
  (split (str ro.longopts) comma).map fun longAlias =>
    if ro.isBracketNo then longAlias.drop 4 else longAlias

def descriptor (type : Nat) (shortopt longopt : Bytes) : Descriptor OptIndex :=
  ⟨ro.index, type, shortopt, longopt, ro.checkArg⟩

def toDescriptor : Descriptor OptIndex :=
  ro.descriptor ro.type (str ro.shortopts) (ro.longAliases.headD [])

def noDescriptors (longAlias : Bytes) : List (Descriptor OptIndex) :=
  [ro.descriptor ro.notype [] (str "no-" ++ longAlias),
    ro.descriptor ro.notype [] (str "no" ++ longAlias)]

def aliasDescriptors : List (Descriptor OptIndex) :=
  ro.longAliases.tail.flatMap fun longAlias =>
    (if ro.isBracketNo then ro.noDescriptors longAlias else []) ++
      [ro.descriptor ro.type [] longAlias]

def bracketNoDescriptors : List (Descriptor OptIndex) :=
  if ro.isBracketNo then ro.noDescriptors (ro.longAliases.headD []) else []

end PreDescriptor

/-- The section headers of the usage text have neither a short nor a long name and come behind
the first such entry, so the parser never picks them. -/
def dynamicUsage : List (Descriptor OptIndex) :=
  rawOptions.map (·.toDescriptor) ++ rawOptions.flatMap (·.aliasDescriptors) ++
    rawOptions.flatMap (·.bracketNoDescriptors)

end OptionTable

section TypeWords

structure ArgParseException where
  what : Bytes
  deriving DecidableEq, Repr

/-- A file type definition parameter with its argument. -/
inductive FileTypeParam
  | typeAdd (filterSpec : Bytes)
  | typeSet (filterSpec : Bytes)
  | typeDel (type : Bytes)
  | ignoreFile (filterSpec : Bytes)
  | exclude (glob : Bytes)
  | «include» (glob : Bytes)
  deriving DecidableEq, Repr

def fileTypeParam : List Bytes → Option FileTypeParam
  | [name, arg] =>
    if name = str "type-add" then some (.typeAdd arg)
    else if name = str "type-set" then some (.typeSet arg)
    else if name = str "type-del" then some (.typeDel arg)
    else if name = str "ignore-file" then some (.ignoreFile arg)
    else if name = str "exclude" ∨ name = str "ignore" then some (.exclude arg)
    else if name = str "include" then some (.include arg)
    else none
  | _ => none

def TypeManager.applyParam (tm : TypeManager) :
    FileTypeParam → Except TypeManagerException TypeManager
  | .typeAdd filterSpec => tm.typeAddFromFilterSpecString false filterSpec
  | .typeSet filterSpec => tm.typeAddFromFilterSpecString true filterSpec
  | .typeDel type => .ok (tm.typeDel type).2
  | .ignoreFile filterSpec => tm.typeAddIgnoreFileFromFilterSpecString filterSpec
  | .exclude glob => tm.typeAddIgnoreFileFromFilterSpecString (str "globx:" ++ glob)
  | .include glob => tm.typeAddIncludeGlobFromFilterSpecString (str "glob:" ++ glob)

inductive WordAction
  | skip
  | stop
  | rewrite (newParam : Bytes)
  | ambiguous (possibilities : Bytes)
  | param (p : FileTypeParam)
  deriving DecidableEq, Repr

/-- What the list of the type names that match a word makes of it. -/
def matchedAction (no argtxt : Bytes) : List Bytes → WordAction
  | [] => .skip
  | [typeName] => .rewrite (str "--type=" ++ no ++ typeName)
  | typeNameList => .ambiguous (str "option '--" ++ argtxt ++
      str "' is ambiguous; possibilities: " ++ (str "'--" ++ no ++
        join typeNameList (str "' '--" ++ no) ++ str "'"))

/-- The branches of the loop of `HandleTYPELogic`. The test for `--` comes behind the one for
words of fewer than three bytes. -/
def wordAction (tm : TypeManager) (arg : Bytes) : WordAction :=
  if arg.length < 3 ∨ ¬ dashDash <+: arg then .skip
  else if arg = dashDash then .stop
  else
    let argtxt := arg.drop 2
    match tm.getMatchingTypenameList argtxt with
    | [] =>
      if str "no" <+: argtxt then
        matchedAction (str "no") argtxt (tm.getMatchingTypenameList (argtxt.drop 2))
      else
        match fileTypeParam (split argtxt equalsSign) with
        | some p => .param p
        | none => .skip
    | typeNameList => matchedAction [] argtxt typeNameList

def handleTYPELogic (tm : TypeManager) :
    List Bytes → Except ArgParseException (TypeManager × List Bytes)
  | [] => .ok (tm, [])
  | arg :: rest =>
    match wordAction tm arg with
    | .stop => .ok (tm, arg :: rest)
    | .skip => do
      let (tm', rest') ← handleTYPELogic tm rest
      return (tm', arg :: rest')
    | .rewrite newParam => do
      let (tm', rest') ← handleTYPELogic tm rest
      return (tm', newParam :: rest')
    | .ambiguous possibilities => .error ⟨possibilities⟩
    | .param p =>
      match tm.applyParam p with
      | .error e => .error ⟨e.what ++ str " while parsing option '" ++ arg ++ str "'"⟩
      | .ok tm' => do
        let (tm'', rest') ← handleTYPELogic tm' rest
        return (tm'', arg :: rest')

end TypeWords

structure ArgParse where
  smartCase : Bool := true
  pattern : Bytes := []
  ignoreCase : Bool := false
  wordRegexp : Bool := false
  patternIsLiteral : Bool := false
  lineNumber : Bool := true
  column : Bool := false
  paths : List Bytes := []
  excludes : SortedMap Bytes Unit := SortedMap.empty
  jobs : Int := 0
  dirjobs : Int := 0
  color : Bool := true
  prefixFile : Bool := false
  recurse : Bool := true
  followSymlinks : Bool := false
  useMmap : Bool := false

/-- How `Parse` ends without parsed options. -/
inductive ParseExit
  | argParseException (e : ArgParseException)
  | exit (status : Nat)
  | outOfRange
  deriving DecidableEq, Repr

def statusExUsage : Nat := 255

def defaultDirjobs : Int := 4

section Parse

variable (opts : List (ParsedOption OptIndex)) (index : OptIndex)

/-- The chain of the options of one index, `options[index]` first. -/
def optionChain : List (ParsedOption OptIndex) := opts.filter (·.index = index)

def isGiven : Bool := !(optionChain opts index).isEmpty

/-- `options[index].last()->type()`, which is zero for an option that was not given. -/
def lastType : Nat := ((optionChain opts index).getLast?.map (·.type)).getD 0

def handleCaseStep (ap : ArgParse) (opt : ParsedOption OptIndex) : ArgParse :=
  if opt.type = Ucg.ignoreCase then { ap with ignoreCase := true, smartCase := false }
  else if opt.type = Ucg.smartCase then { ap with smartCase := true, ignoreCase := false }
  else if opt.type = noSmartCase then { ap with smartCase := false }
  else ap

def ignoreDirStep (excludes : SortedMap Bytes Unit) (opt : ParsedOption OptIndex) :
    SortedMap Bytes Unit :=
  let name := opt.arg.getD []
  if opt.type = enable then excludes.insert name () else excludes.erase name

def optTypeStep (tm : TypeManager) (opt : ParsedOption OptIndex) : Except ParseExit TypeManager :=
  let arg := opt.arg.getD []
  let result := if str "no" <+: arg then tm.notype (arg.drop 2) else tm.type arg
  if result.1 then .ok result.2 else .error (.exit statusExUsage)

def optTypeLoop (tm : TypeManager) : Except ParseExit TypeManager :=
  (optionChain opts .type).foldlM optTypeStep tm

/-- `std::stoi` of the first option of the chain. -/
def jobsOption (current : Int) : Except ParseExit Int :=
  match optionChain opts index with
  | [] => .ok current
  | opt :: _ =>
    match opt.arg.bind stoi with
    | some n => .ok n
    | none => .error .outOfRange

end Parse

/-- What `Parse` asks the system for. -/
structure ParseEnv where
  stdoutIsTty : Bool
  hardwareConcurrency : Nat

def isUpper (c : UInt8) : Bool := 65 ≤ c ∧ c ≤ 90

/-- The fields that the switches set, from the chains of their options. -/
def parseSwitches (env : ParseEnv) (opts : List (ParsedOption OptIndex)) (ap : ArgParse) :
    ArgParse :=
  let ap := { ap with useMmap := lastType opts .testUseMmap = enable }
  let ap := (optionChain opts .handleCase).foldl handleCaseStep ap
  let ap := { ap with
    wordRegexp := isGiven opts .wordRegex
    patternIsLiteral := isGiven opts .literal }
  let ap := if env.stdoutIsTty then ap else { ap with prefixFile := true, color := false }
  let ap := if isGiven opts .color then { ap with color := lastType opts .color = enable } else ap
  let ap := if isGiven opts .prefixFile then
    { ap with prefixFile := lastType opts .prefixFile = enable } else ap
  let ap := if isGiven opts .lineNumber then
    { ap with lineNumber := lastType opts .lineNumber = enable } else ap
  let ap := { ap with column := lastType opts .column = enable }
  let ap := if ap.column then { ap with lineNumber := true } else ap
  let ap := if isGiven opts .recurseSubdirs then
    { ap with recurse := lastType opts .recurseSubdirs = enable } else ap
  let ap := { ap with followSymlinks := lastType opts .follow = enable }
  { ap with excludes := (optionChain opts .ignoreDir).foldl ignoreDirStep ap.excludes }

/-- The defaults that depend on all options. -/
def parseDefaults (env : ParseEnv) (ap : ArgParse) : ArgParse :=
  let ap := if ap.jobs = 0 then { ap with jobs := env.hardwareConcurrency } else ap
  let ap := if ap.jobs = 0 then { ap with jobs := 1 } else ap
  let ap := if ap.dirjobs = 0 then { ap with dirjobs := defaultDirjobs } else ap
  let ap := if ap.paths = [] then { ap with paths := [[dot]] } else ap
  if ap.smartCase ∧ ¬ ap.ignoreCase ∧ ¬ ap.pattern.any isUpper then { ap with ignoreCase := true }
  else ap

/-- `Parse` behind the option parser. -/
def parseOptions (env : ParseEnv) (tm : TypeManager) (opts : List (ParsedOption OptIndex))
    (nonOptions : List Bytes) : Except ParseExit (ArgParse × TypeManager) :=
  if isGiven opts .help ∨ isGiven opts .version ∨ isGiven opts .helpTypes then .error (.exit 0)
  else
    match nonOptions with
    | [] => .error (.exit statusExUsage)
    | pattern :: paths => do
      let ap := parseSwitches env opts { pattern := pattern, paths := paths }
      let tm ← optTypeLoop opts tm
      let dirjobs ← jobsOption opts .perfDirjobs ap.dirjobs
      let jobs ← jobsOption opts .perfScanjobs ap.jobs
      return (parseDefaults env { ap with dirjobs := dirjobs, jobs := jobs }, tm)

/-- The words of the rc files come behind `argv[0]` and before the others, unless `--noenv`
stands before a `--`. -/
def combineArgv (userArgv projectArgv argv : List Bytes) : List Bytes :=
  if str "--noenv" ∈ argv.takeWhile (· ≠ dashDash) then argv
  else argv.take 1 ++ userArgv ++ projectArgv ++ argv.drop 1

/-- `ArgParse::Parse`, with the words that it reads from the rc files. -/
def parse (env : ParseEnv) (tm : TypeManager) (userArgv projectArgv argv : List Bytes) :
    Except ParseExit (ArgParse × TypeManager) :=
  match handleTYPELogic tm (combineArgv userArgv projectArgv argv) with
  | .error e => .error (.argParseException e)
  | .ok (tm, combinedArgv) =>
    match parseArgs dynamicUsage (combinedArgv.drop 1) with
    | none => .error (.exit statusExUsage)
    | some (opts, nonOptions) => parseOptions env tm opts nonOptions

end Ucg
