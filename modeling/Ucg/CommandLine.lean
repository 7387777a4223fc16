import Ucg.LastOption
import Ucg.TypeWords

/-! The command lines that the option parser accepts, as a grammar, and what they say. -/

namespace Ucg

section Grammar

variable {ι : Type*}

namespace Descriptor

def IsFlag (d : Descriptor ι) : Prop := ∀ arg, d.checkArg arg = .none

def TakesArg (d : Descriptor ι) : Prop :=
  ∀ arg, d.checkArg arg = .illegal ∨ d.checkArg arg = .ok ∧ arg.isSome = true

def option (d : Descriptor ι) (arg : Option Bytes) : ParsedOption ι := ⟨d.index, d.type, arg⟩

end Descriptor

/-- An option takes an argument always or never, and unknown options are refused. -/
structure StrictUsage (usage : List (Descriptor ι)) : Prop where
  plain : ∀ d ∈ usage, d.IsFlag ∨ d.TakesArg
  unknown : ∃ d, dummyDescriptor usage = some d ∧ ∀ arg, d.checkArg arg = .illegal
  noEquals : ∀ d ∈ usage, equalsSign ∉ d.longopt

/-- The short options of a word: flags, and one with an argument at most, which is the rest of the
word or the next word. -/
inductive ShortGroup (usage : List (Descriptor ι)) :
    Bytes → Option Bytes → List (ParsedOption ι) → Prop
  | nil : ShortGroup usage [] none []
  | flag {c : UInt8} {rest : Bytes} {detached : Option Bytes} {opts : List (ParsedOption ι)}
      {d : Descriptor ι} (hd : usage.find? (·.shortopt.contains c) = some d) (hflag : d.IsFlag)
      (hrest : ShortGroup usage rest detached opts) :
      ShortGroup usage (c :: rest) detached (d.option none :: opts)
  | attached {c : UInt8} {arg : Bytes} {d : Descriptor ι}
      (hd : usage.find? (·.shortopt.contains c) = some d) (harg : d.checkArg (some arg) = .ok)
      (hne : arg ≠ []) : ShortGroup usage (c :: arg) none [d.option (some arg)]
  | detached {c : UInt8} {arg : Bytes} {d : Descriptor ι}
      (hd : usage.find? (·.shortopt.contains c) = some d) (harg : d.checkArg (some arg) = .ok) :
      ShortGroup usage [c] (some arg) [d.option (some arg)]

/-- A word with options, and the next word where that is the argument of the last. A flag drops what
stands behind an equals sign. -/
inductive OptionWord (usage : List (Descriptor ι)) :
    Bytes → Option Bytes → List (ParsedOption ι) → Prop
  | flag {name attached : Bytes} {d : Descriptor ι} (hname : equalsSign ∉ name)
      (hattached : attached = [] ∨ attached.head? = some equalsSign) (hne : name ++ attached ≠ [])
      (hd : findLongOption usage name = some d) (hflag : d.IsFlag) :
      OptionWord usage (dashDash ++ (name ++ attached)) none [d.option none]
  | attached {name arg : Bytes} {d : Descriptor ι} (hname : equalsSign ∉ name)
      (hd : findLongOption usage name = some d) (harg : d.checkArg (some arg) = .ok) :
      OptionWord usage (dashDash ++ (name ++ equalsSign :: arg)) none [d.option (some arg)]
  | detached {name arg : Bytes} {d : Descriptor ι} (hname : equalsSign ∉ name) (hne : name ≠ [])
      (hd : findLongOption usage name = some d) (harg : d.checkArg (some arg) = .ok) :
      OptionWord usage (dashDash ++ name) (some arg) [d.option (some arg)]
  | short {c : UInt8} {group : Bytes} {detached : Option Bytes} {opts : List (ParsedOption ι)}
      (hc : c ≠ dash) (h : ShortGroup usage (c :: group) detached opts) :
      OptionWord usage (dash :: c :: group) detached opts

/-- The words behind `argv[0]`, their options and their other arguments. -/
inductive CommandLine (usage : List (Descriptor ι)) :
    List Bytes → List (ParsedOption ι) → List Bytes → Prop
  | nil : CommandLine usage [] [] []
  | terminator (rest : List Bytes) : CommandLine usage (dashDash :: rest) [] rest
  | nonOption {param : Bytes} {rest nonops : List Bytes} {opts : List (ParsedOption ι)}
      (hparam : isOptionWord param = false) (hrest : CommandLine usage rest opts nonops) :
      CommandLine usage (param :: rest) opts (param :: nonops)
  | option {param : Bytes} {detached : Option Bytes} {rest nonops : List Bytes}
      {first opts : List (ParsedOption ι)} (hparam : OptionWord usage param detached first)
      (hrest : CommandLine usage rest opts nonops) :
      CommandLine usage (param :: (detached.toList ++ rest)) (first ++ opts) nonops

end Grammar

section Parser

variable {ι : Type*} {usage : List (Descriptor ι)} {d : Descriptor ι} {opts : List (ParsedOption ι)}
  {usesNext : Bool} {next : Option Bytes}

theorem parseArgs_cons (param : Bytes) (rest : List Bytes) :
    parseArgs usage (param :: rest) =
      if !isOptionWord param then
        (parseArgs usage rest).map fun parsed => (parsed.1, param :: parsed.2)
      else if param = dashDash then some ([], rest)
      else (parseOptionWord usage param rest.head?).bind fun word =>
        (parseArgs usage (if word.2 then rest.tail else rest)).map fun parsed =>
          (word.1 ++ parsed.1, parsed.2) := by
  cases rest with
  | nil =>
    conv_lhs => rw [parseArgs]
    by_cases hoption : isOptionWord param = true
    · by_cases hterminator : param = dashDash
      · subst hterminator
        simp [hoption]
      · cases hword : parseOptionWord usage param none <;> simp [hoption, hterminator, hword, parseArgs]
    · simp [hoption, parseArgs]
  | cons next rest =>
    conv_lhs => rw [parseArgs]
    by_cases hoption : isOptionWord param = true
    · by_cases hterminator : param = dashDash
      · subst hterminator
        simp [hoption]
      · cases hword : parseOptionWord usage param (some next) with
        | none => simp [hoption, hterminator, hword]
        | some word =>
          obtain ⟨first, usesNext⟩ := word
          cases usesNext <;> simp [hoption, hterminator, hword]
    · cases parseArgs usage (next :: rest) <;> simp [hoption]

theorem performOption_flag (hflag : d.IsFlag) (optarg : Option Bytes) (detached : Bool) :
    performOption (some d) optarg detached = some ([d.option none], false) := by
  simp [performOption, hflag optarg, Descriptor.option]

theorem performOption_arg {arg : Bytes} (harg : d.checkArg (some arg) = .ok) (detached : Bool) :
    performOption (some d) (some arg) detached = some ([d.option (some arg)], detached) := by
  simp [performOption, harg, Descriptor.option]

/-- What an option that is found gives, when it is accepted. -/
theorem performOption_cases (hplain : d.IsFlag ∨ d.TakesArg) {optarg : Option Bytes} {detached : Bool}
    (h : performOption (some d) optarg detached = some (opts, usesNext)) :
    (d.IsFlag ∧ opts = [d.option none] ∧ usesNext = false) ∨
      ∃ arg, optarg = some arg ∧ d.checkArg (some arg) = .ok ∧ opts = [d.option (some arg)] ∧
        usesNext = detached := by
  rcases hplain with hflag | htakes
  · rw [performOption_flag hflag] at h
    obtain ⟨rfl, rfl⟩ := Prod.mk.inj (Option.some.inj h)
    exact Or.inl ⟨hflag, rfl, rfl⟩
  · rcases htakes optarg with hillegal | ⟨hok, hsome⟩
    · simp [performOption, hillegal] at h
    · obtain ⟨arg, rfl⟩ := Option.isSome_iff_exists.mp hsome
      rw [performOption_arg hok] at h
      obtain ⟨rfl, rfl⟩ := Prod.mk.inj (Option.some.inj h)
      exact Or.inr ⟨arg, rfl, hok, rfl, rfl⟩

theorem StrictUsage.exists_found (husage : StrictUsage usage) {found : Option (Descriptor ι)}
    {optarg : Option Bytes} {detached : Bool}
    (h : performOption (found.or (dummyDescriptor usage)) optarg detached = some (opts, usesNext)) :
    ∃ d, found = some d := by
  cases found with
  | some d => exact ⟨d, rfl⟩
  | none =>
    obtain ⟨d, hd, hillegal⟩ := husage.unknown
    simp [performOption, hd, hillegal] at h

theorem parseShortOptions_flag {c : UInt8} {rest : Bytes}
    (hd : usage.find? (·.shortopt.contains c) = some d) (hflag : d.IsFlag) :
    parseShortOptions usage (c :: rest) next =
      (parseShortOptions usage rest next).map fun word => (d.option none :: word.1, word.2) := by
  rw [parseShortOptions]
  simp only [hd, Option.some_or, Option.map_some, hflag _, performOption_flag hflag]
  cases parseShortOptions usage rest next <;> rfl

theorem parseShortOptions_arg {c : UInt8} {rest arg : Bytes}
    (hd : usage.find? (·.shortopt.contains c) = some d) (harg : d.checkArg (some arg) = .ok)
    (hoptarg : (if rest = [] then next else some rest) = some arg) :
    parseShortOptions usage (c :: rest) next = some ([d.option (some arg)], decide (rest = [])) := by
  rw [parseShortOptions]
  simp only [hd, Option.some_or, Option.map_some, hoptarg, harg, performOption_arg harg]

theorem StrictUsage.parseShortOptions_illegal (husage : StrictUsage usage) {c : UInt8} {rest : Bytes}
    (h : parseShortOptions usage (c :: rest) next = some (opts, usesNext)) :
    ∃ d, usage.find? (·.shortopt.contains c) = some d ∧
      (d.IsFlag ∨ ∃ arg, (if rest = [] then next else some rest) = some arg ∧
        d.checkArg (some arg) = .ok) := by
  have hperform : ∃ (opts' : List (ParsedOption ι)) (usesNext' detached : Bool),
      performOption ((usage.find? (·.shortopt.contains c)).or (dummyDescriptor usage))
        (if rest = [] then next else some rest) detached = some (opts', usesNext') := by
    rw [parseShortOptions] at h
    dsimp only at h
    split at h
    · exact ⟨_, _, _, h⟩
    · obtain ⟨⟨first, used⟩, hfirst, -⟩ := Option.bind_eq_some_iff.mp h
      exact ⟨_, _, _, hfirst⟩
  obtain ⟨opts', usesNext', detached, hperform⟩ := hperform
  obtain ⟨d, hd⟩ := husage.exists_found hperform
  rw [hd, Option.some_or] at hperform
  refine ⟨d, hd, ?_⟩
  rcases performOption_cases (husage.plain d (List.mem_of_find?_eq_some hd)) hperform with
    ⟨hflag, -⟩ | ⟨arg, hoptarg, hok, -⟩
  · exact Or.inl hflag
  · exact Or.inr ⟨arg, hoptarg, hok⟩

theorem StrictUsage.parseShortOptions_iff (husage : StrictUsage usage) {group : Bytes} :
    parseShortOptions usage group next = some (opts, usesNext) ↔
      ∃ detached, ShortGroup usage group detached opts ∧ usesNext = detached.isSome ∧
        ∀ arg ∈ detached, next = some arg := by
  constructor
  · intro h
    induction group generalizing opts with
    | nil =>
      obtain ⟨rfl, rfl⟩ := Prod.mk.inj (Option.some.inj h)
      exact ⟨none, .nil, rfl, by simp⟩
    | cons c rest ih =>
      obtain ⟨d, hd, hflag | ⟨arg, hoptarg, hok⟩⟩ := husage.parseShortOptions_illegal h
      · rw [parseShortOptions_flag hd hflag] at h
        obtain ⟨⟨others, used⟩, hothers, heq⟩ := Option.map_eq_some_iff.mp h
        obtain ⟨rfl, rfl⟩ := Prod.mk.inj heq
        obtain ⟨detached, hgroup, hused, hnext⟩ := ih hothers
        exact ⟨detached, .flag hd hflag hgroup, hused, hnext⟩
      · rw [parseShortOptions_arg hd hok hoptarg] at h
        obtain ⟨rfl, rfl⟩ := Prod.mk.inj (Option.some.inj h)
        by_cases hrest : rest = []
        · subst hrest
          exact ⟨some arg, .detached hd hok, rfl, fun a ha => by cases ha; exact hoptarg⟩
        · rw [if_neg hrest] at hoptarg
          obtain rfl := Option.some.inj hoptarg
          exact ⟨none, .attached hd hok hrest, by simp [hrest], by simp⟩
  · rintro ⟨detached, hgroup, rfl, hnext⟩
    induction hgroup with
    | nil => rfl
    | flag hd hflag hrest ih => rw [parseShortOptions_flag hd hflag, ih hnext]; rfl
    | attached hd harg hne =>
      rw [parseShortOptions_arg hd harg (if_neg hne)]
      simp [hne]
    | detached hd harg =>
      rw [parseShortOptions_arg hd harg ((if_pos rfl).trans (hnext _ rfl))]
      rfl

theorem takeWhile_ne_equalsSign {name attached : Bytes} (hname : equalsSign ∉ name)
    (hattached : attached = [] ∨ attached.head? = some equalsSign) :
    (name ++ attached).takeWhile (· ≠ equalsSign) = name ∧
      (name ++ attached).dropWhile (· ≠ equalsSign) = attached := by
  have hne : ∀ c ∈ name, decide (c ≠ equalsSign) = true := fun c hc =>
    decide_eq_true (ne_of_mem_of_not_mem hc hname)
  rw [List.takeWhile_append_of_pos hne, List.dropWhile_append_of_pos hne]
  rcases hattached with rfl | hhead
  · simp
  · obtain ⟨rest, rfl⟩ := List.head?_eq_some_iff.mp hhead
    simp

/-- A long option by its name, and by what stands behind the name. -/
theorem StrictUsage.parseLongOption_eq (husage : StrictUsage usage) {name attached : Bytes}
    (hname : equalsSign ∉ name) (hattached : attached = [] ∨ attached.head? = some equalsSign) :
    parseLongOption usage (name ++ attached) next =
      performOption ((findLongOption usage name).or (dummyDescriptor usage))
        (if attached = [] then next else some attached.tail) (attached = []) := by
  obtain ⟨htake, hdrop⟩ := takeWhile_ne_equalsSign hname hattached
  rw [parseLongOption, hdrop, ← findLongOption_takeWhile husage.noEquals, htake]
  cases attached with
  | nil => simp
  | cons c attached => simp

theorem exists_name (longoptName : Bytes) : ∃ name attached, longoptName = name ++ attached ∧
    equalsSign ∉ name ∧ (attached = [] ∨ attached.head? = some equalsSign) := by
  refine ⟨longoptName.takeWhile (· ≠ equalsSign), longoptName.dropWhile (· ≠ equalsSign),
    List.takeWhile_append_dropWhile.symm, fun hmem => ?_, ?_⟩
  · simpa using List.mem_takeWhile_imp hmem
  · have hhead := List.head?_dropWhile_not (fun c => decide (c ≠ equalsSign)) longoptName
    cases hdrop : longoptName.dropWhile (· ≠ equalsSign) with
    | nil => exact Or.inl rfl
    | cons c rest =>
      rw [hdrop] at hhead
      exact Or.inr (by simpa using hhead)

theorem OptionWord.isOptionWord {param : Bytes} {detached : Option Bytes}
    (h : OptionWord usage param detached opts) : isOptionWord param = true ∧ param ≠ dashDash := by
  have hlong {name : Bytes} (hne : name ≠ []) :
      Ucg.isOptionWord (dashDash ++ name) = true ∧ dashDash ++ name ≠ dashDash := by
    simp [Ucg.isOptionWord, dashDash, hne]
  cases h with
  | flag hname hattached hne hd hflag => exact hlong hne
  | attached hname hd harg => exact hlong (by simp)
  | detached hname hne hd harg => exact hlong hne
  | short hc hgroup => simp [Ucg.isOptionWord, dashDash, hc]

theorem parseOptionWord_long (name : Bytes) :
    parseOptionWord usage (dashDash ++ name) next = parseLongOption usage name next := by
  simp [parseOptionWord, dashDash]

theorem parseOptionWord_short {c : UInt8} (hc : c ≠ dash) (group : Bytes) :
    parseOptionWord usage (dash :: c :: group) next = parseShortOptions usage (c :: group) next := by
  simp [parseOptionWord, dashDash, hc.symm]

theorem OptionWord.parse (husage : StrictUsage usage) {param : Bytes} {detached : Option Bytes}
    (h : OptionWord usage param detached opts) (hnext : ∀ arg ∈ detached, next = some arg) :
    parseOptionWord usage param next = some (opts, detached.isSome) := by
  cases h with
  | flag hname hattached hne hd hflag =>
    rw [parseOptionWord_long, husage.parseLongOption_eq hname hattached, hd, Option.some_or,
      performOption_flag hflag]
    rfl
  | attached hname hd harg =>
    rw [parseOptionWord_long, husage.parseLongOption_eq hname (Or.inr rfl), hd, Option.some_or]
    exact performOption_arg harg false
  | @detached name arg d hname hne hd harg =>
    have hparse : parseLongOption usage (name ++ []) next = _ :=
      husage.parseLongOption_eq hname (Or.inl rfl)
    rw [List.append_nil, if_pos rfl, hnext arg rfl, hd, Option.some_or, performOption_arg harg] at hparse
    rw [parseOptionWord_long, hnext arg rfl, hparse]
    rfl
  | short hc hgroup =>
    rw [parseOptionWord_short hc]
    exact husage.parseShortOptions_iff.mpr ⟨detached, hgroup, rfl, hnext⟩

theorem StrictUsage.exists_optionWord (husage : StrictUsage usage) {param : Bytes}
    (hoption : isOptionWord param = true) (hne : param ≠ dashDash)
    (h : parseOptionWord usage param next = some (opts, usesNext)) :
    ∃ detached, OptionWord usage param detached opts ∧ usesNext = detached.isSome ∧
      ∀ arg ∈ detached, next = some arg := by
  by_cases hlong : dashDash <+: param
  · obtain ⟨longoptName, rfl⟩ := hlong
    obtain ⟨name, attached, rfl, hname, hattached⟩ := exists_name longoptName
    have hword : name ++ attached ≠ [] := fun hnil => hne (by rw [hnil, List.append_nil])
    rw [parseOptionWord_long, husage.parseLongOption_eq hname hattached] at h
    obtain ⟨d, hd⟩ := husage.exists_found h
    rw [hd, Option.some_or] at h
    rcases performOption_cases (husage.plain d (mem_of_findLongOption hd)) h with
      ⟨hflag, rfl, rfl⟩ | ⟨arg, hoptarg, hok, rfl, rfl⟩
    · exact ⟨none, .flag hname hattached hword hd hflag, rfl, by simp⟩
    · rcases hattached with rfl | hhead
      · rw [List.append_nil] at hword ⊢
        refine ⟨some arg, .detached hname hword hd hok, by simp, fun a ha => ?_⟩
        cases ha
        exact hoptarg
      · obtain ⟨rest, rfl⟩ := List.head?_eq_some_iff.mp hhead
        obtain rfl : rest = arg := by simpa using hoptarg
        exact ⟨none, .attached hname hd hok, by simp, by simp⟩
  · obtain ⟨c, group, rfl, hc⟩ : ∃ c group, param = dash :: c :: group ∧ c ≠ dash := by
      have hdash : [dash] <+: param ∧ param ≠ [dash] := by simpa [isOptionWord] using hoption
      obtain ⟨⟨rest, rfl⟩, hmore⟩ := hdash
      cases rest with
      | nil => exact absurd rfl hmore
      | cons c group =>
        refine ⟨c, group, rfl, fun hc => hlong ?_⟩
        rw [hc]
        exact ⟨group, rfl⟩
    rw [parseOptionWord_short hc] at h
    obtain ⟨detached, hgroup, hused, hnext⟩ := husage.parseShortOptions_iff.mp h
    exact ⟨detached, .short hc hgroup, hused, hnext⟩

/-- The parser accepts the command lines of the grammar, with what they say. -/
theorem StrictUsage.parseArgs_iff (husage : StrictUsage usage) {args nonops : List Bytes} :
    parseArgs usage args = some (opts, nonops) ↔ CommandLine usage args opts nonops := by
  constructor
  · intro h
    induction hn : args.length using Nat.strong_induction_on generalizing args opts nonops with
    | _ n ih =>
      cases args with
      | nil =>
        obtain ⟨rfl, rfl⟩ := Prod.mk.inj (Option.some.inj h)
        exact .nil
      | cons param rest =>
        have hshorter {rest' nonops' : List Bytes} {opts' : List (ParsedOption ι)}
            (hlength : rest'.length ≤ rest.length) (h' : parseArgs usage rest' = some (opts', nonops')) :
            CommandLine usage rest' opts' nonops' :=
          ih rest'.length (by rw [← hn, List.length_cons]; omega) h' rfl
        rw [parseArgs_cons] at h
        split_ifs at h with hoption hterminator
        · obtain ⟨⟨opts', nonops'⟩, hrest, heq⟩ := Option.map_eq_some_iff.mp h
          obtain ⟨rfl, rfl⟩ := Prod.mk.inj heq
          exact .nonOption (by simpa using hoption) (hshorter le_rfl hrest)
        · obtain ⟨rfl, rfl⟩ := Prod.mk.inj (Option.some.inj h)
          rw [hterminator]
          exact .terminator rest
        · obtain ⟨⟨first, usesNext⟩, hword, h⟩ := Option.bind_eq_some_iff.mp h
          obtain ⟨⟨opts', nonops'⟩, hrest, heq⟩ := Option.map_eq_some_iff.mp h
          obtain ⟨rfl, rfl⟩ := Prod.mk.inj heq
          obtain ⟨detached, hparam, rfl, hnext⟩ :=
            husage.exists_optionWord (by simpa using hoption) hterminator hword
          cases detached with
          | none => exact .option hparam (hshorter le_rfl hrest)
          | some arg =>
            obtain ⟨tail, rfl⟩ := List.head?_eq_some_iff.mp (hnext arg rfl)
            exact .option hparam (hshorter (Nat.le_succ _) hrest)
  · intro h
    induction h with
    | nil => rfl
    | terminator rest => simp [parseArgs_cons, Ucg.isOptionWord, dashDash]
    | nonOption hparam hrest ih => simp [parseArgs_cons, hparam, ih]
    | @option param detached rest nonops first opts hparam hrest ih =>
      obtain ⟨hoption, hterminator⟩ := hparam.isOptionWord
      have hnext : ∀ arg ∈ detached, (detached.toList ++ rest).head? = some arg := by
        rintro arg rfl
        rfl
      rw [parseArgs_cons, hparam.parse husage hnext]
      cases detached <;> simp [hoption, hterminator, ih]

/-- Words that are accepted in front say the same whatever comes behind them. -/
theorem CommandLine.parse_append (husage : StrictUsage usage) {front nonops : List Bytes}
    (h : CommandLine usage front opts nonops) (hterminator : dashDash ∉ front) (back : List Bytes) :
    parseArgs usage (front ++ back) =
      (parseArgs usage back).map fun parsed => (opts ++ parsed.1, nonops ++ parsed.2) := by
  induction h with
  | nil => simp
  | terminator rest => exact absurd List.mem_cons_self hterminator
  | nonOption hparam hrest ih =>
    rw [List.cons_append, parseArgs_cons, ih (List.not_mem_of_not_mem_cons hterminator)]
    simp [hparam, Function.comp_def]
  | @option param detached rest nonops first opts hparam hrest ih =>
    obtain ⟨hoption, hne⟩ := hparam.isOptionWord
    have hnext : ∀ arg ∈ detached, (detached.toList ++ rest ++ back).head? = some arg := by
      rintro arg rfl
      rfl
    have hfree : dashDash ∉ rest := fun hmem =>
      hterminator (List.mem_cons_of_mem _ (List.mem_append_right _ hmem))
    rw [List.cons_append, parseArgs_cons, hparam.parse husage hnext]
    cases detached <;> simp [hoption, hne, ih hfree, Function.comp_def]

end Parser

section Table

theorem checkArg_dynamicUsage {d : Descriptor OptIndex} (h : d ∈ dynamicUsage) :
    d.checkArg = indexCheck d.index := by
  obtain ⟨ro, hro, hindex, hcheck⟩ := exists_rawOption h
  rw [hcheck, checkArg_eq_indexCheck ro hro, hindex]

theorem isFlag_or_takesArg {d : Descriptor OptIndex} (h : d ∈ dynamicUsage) :
    d.IsFlag ∨ d.TakesArg := by
  have hnonEmpty (arg : Option Bytes) :
      Arg.NonEmpty arg = .illegal ∨ Arg.NonEmpty arg = .ok ∧ arg.isSome = true := by
    unfold Arg.NonEmpty
    split_ifs with hok
    · exact Or.inr ⟨rfl, Option.isSome_of_any hok⟩
    · exact Or.inl rfl
  have hinteger (arg : Option Bytes) :
      Arg.IntegerGreater 0 arg = .illegal ∨ Arg.IntegerGreater 0 arg = .ok ∧ arg.isSome = true := by
    unfold Arg.IntegerGreater
    split_ifs with hok
    · exact Or.inr ⟨rfl, Option.isSome_of_isSome_bind (Option.isSome_of_any hok)⟩
    · exact Or.inl rfl
  have hcheck := checkArg_dynamicUsage h
  cases hindex : d.index <;> rw [hindex] at hcheck <;>
    first
    | exact Or.inl fun arg => by rw [hcheck]; rfl
    | exact Or.inr fun arg => by rw [hcheck]; exact hnonEmpty arg
    | exact Or.inr fun arg => by rw [hcheck]; exact hinteger arg
    | exact Or.inr fun arg => by rw [hcheck]; exact Or.inl rfl

theorem strictUsage_dynamicUsage : StrictUsage dynamicUsage where
  plain _ := isFlag_or_takesArg
  unknown := by
    have hindex : (dummyDescriptor dynamicUsage).map (·.index) = some .unknown := by decide
    obtain ⟨d, hd, hunknown⟩ := Option.map_eq_some_iff.mp hindex
    refine ⟨d, hd, fun arg => ?_⟩
    rw [checkArg_dynamicUsage (mem_of_dummyDescriptor hd), hunknown]
    rfl
  noEquals := TypeManager.equalsSign_not_mem_longopt

/-- The command lines that are accepted, and what they say. -/
theorem parseArgs_iff_commandLine (args nonops : List Bytes) (opts : List (ParsedOption OptIndex)) :
    parseArgs dynamicUsage args = some (opts, nonops) ↔ CommandLine dynamicUsage args opts nonops :=
  strictUsage_dynamicUsage.parseArgs_iff

/-- The long name of an option in the table. -/
def longName (index : OptIndex) (type : Nat) : Bytes :=
  ((dynamicUsage.find? fun d => d.index = index ∧ d.type = type).map (·.longopt)).getD []

def writeOption (o : ParsedOption OptIndex) : Bytes :=
  dashDash ++ (longName o.index o.type ++ (o.arg.map (equalsSign :: ·)).getD [])

/-- The options by their long names, and the other arguments behind the terminator. -/
def writeArgs (opts : List (ParsedOption OptIndex)) (nonops : List Bytes) : List Bytes :=
  opts.map writeOption ++ dashDash :: nonops

theorem findLongOption_longName : dynamicUsage.all (fun d => d.index = .unknown ∨
    longName d.index d.type ≠ [] ∧ (findLongOption dynamicUsage (longName d.index d.type)).map
      (fun d' => (d'.longopt, d'.index, d'.type)) = some (longName d.index d.type, d.index, d.type)) =
    true := by
  decide +kernel

theorem exists_longName {d : Descriptor OptIndex} (hd : d ∈ dynamicUsage) (hindex : d.index ≠ .unknown) :
    longName d.index d.type ≠ [] ∧ equalsSign ∉ longName d.index d.type ∧
      ∃ d' ∈ dynamicUsage, findLongOption dynamicUsage (longName d.index d.type) = some d' ∧
        d'.index = d.index ∧ d'.type = d.type := by
  have hname := of_decide_eq_true (List.all_eq_true.mp findLongOption_longName d hd)
  obtain ⟨hne, hfound⟩ := hname.resolve_left hindex
  obtain ⟨d', hd', hdata⟩ := Option.map_eq_some_iff.mp hfound
  simp only [Prod.mk.injEq] at hdata
  have hmem := mem_of_findLongOption hd'
  refine ⟨hne, ?_, d', hmem, hd', hdata.2⟩
  rw [← hdata.1]
  exact strictUsage_dynamicUsage.noEquals d' hmem

theorem optionWord_writeOption {d : Descriptor OptIndex} {o : ParsedOption OptIndex}
    (hd : d ∈ dynamicUsage) (h : d.Gives o) : OptionWord dynamicUsage (writeOption o) none [o] := by
  obtain ⟨index, type, arg⟩ := o
  obtain ⟨rfl, rfl, hcheck⟩ := h
  have hknown : d.index ≠ .unknown := by
    intro hunknown
    rw [checkArg_dynamicUsage hd, hunknown] at hcheck
    rcases hcheck with hok | ⟨-, arg', hnone⟩
    · cases hok
    · cases hnone
  obtain ⟨hne, hname, d', hd', hfound, hindex, htype⟩ := exists_longName hd hknown
  have hoption (arg : Option Bytes) : d'.option arg = ⟨d.index, d.type, arg⟩ := by
    rw [Descriptor.option, hindex, htype]
  have hsame : d.checkArg = d'.checkArg := by
    rw [checkArg_dynamicUsage hd, checkArg_dynamicUsage hd', hindex]
  rw [hsame] at hcheck
  rcases isFlag_or_takesArg hd' with hflag | htakes
  · obtain rfl : arg = none := by
      rcases hcheck with hok | ⟨hnone, -⟩
      · rw [hflag arg] at hok
        cases hok
      · exact hnone
    have hword : OptionWord dynamicUsage (dashDash ++ (longName d.index d.type ++ [])) none
        [d'.option none] := .flag hname (Or.inl rfl) (by simpa using hne) hfound hflag
    rw [hoption] at hword
    exact hword
  · rcases hcheck with hok | ⟨-, arg', hnone⟩
    · rcases htakes arg with hillegal | ⟨-, hsome⟩
      · rw [hillegal] at hok
        cases hok
      · obtain ⟨a, rfl⟩ := Option.isSome_iff_exists.mp hsome
        have hword : OptionWord dynamicUsage (dashDash ++ (longName d.index d.type ++ equalsSign :: a))
            none [d'.option (some a)] := .attached hname hfound hok
        rw [hoption] at hword
        exact hword
    · rcases htakes arg' with hillegal | ⟨hok, -⟩
      · rw [hillegal] at hnone
        cases hnone
      · rw [hok] at hnone
        cases hnone

/-- What the parser makes of a command line can be written down again, by long names and with a
terminator, and is read as the same. -/
theorem parseArgs_writeArgs {args nonops : List Bytes} {opts : List (ParsedOption OptIndex)}
    (h : parseArgs dynamicUsage args = some (opts, nonops)) :
    parseArgs dynamicUsage (writeArgs opts nonops) = some (opts, nonops) := by
  rw [strictUsage_dynamicUsage.parseArgs_iff]
  have hgives : ∀ o ∈ opts, ∃ d ∈ dynamicUsage, d.Gives o := fun o ho => gives_of_parseArgs h ho
  clear h
  induction opts with
  | nil => exact .terminator nonops
  | cons o opts ih =>
    obtain ⟨⟨d, hd, ho⟩, hrest⟩ := List.forall_mem_cons.mp hgives
    exact .option (optionWord_writeOption hd ho) (ih hrest)

theorem parseArgs_writeArgs_short :
    parseArgs dynamicUsage
        (writeArgs [⟨.handleCase, ignoreCase, none⟩, ⟨.perfScanjobs, 0, some (str "4")⟩] [str "-x"]) =
      some ([⟨.handleCase, ignoreCase, none⟩, ⟨.perfScanjobs, 0, some (str "4")⟩], [str "-x"]) := by
  have hargs : parseArgs dynamicUsage [str "-ij4", dashDash, str "-x"] =
      some ([⟨.handleCase, ignoreCase, none⟩, ⟨.perfScanjobs, 0, some (str "4")⟩], [str "-x"]) := by
    decide +kernel
  exact parseArgs_writeArgs hargs

end Table

end Ucg
