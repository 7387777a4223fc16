import Mathlib.Data.List.TakeWhile
import Ucg.Strings

/-! The option parser: `Parser::workhorse` with GNU ordering, abbreviations of at least two
letters and no long options behind a single minus. -/

namespace Ucg

def dash : UInt8 := 45

def dashDash : Bytes := [dash, dash]

def minAbbrLen : Nat := 2

inductive ArgStatus
  | none
  | ok
  | illegal
  deriving DecidableEq, Repr

structure Descriptor (ι : Type*) where
  index : ι
  type : Nat
  shortopt : Bytes
  longopt : Bytes
  checkArg : Option Bytes → ArgStatus

structure ParsedOption (ι : Type*) where
  index : ι
  type : Nat
  arg : Option Bytes
  deriving DecidableEq, Repr

section Parser

variable {ι : Type*}

/-- `st1` is `st2`, or what stands before an equals sign in it. -/
def streq : Bytes → Bytes → Bool
  | [], [] => true
  | [], c :: _ => c = equalsSign
  | _ :: _, [] => false
  | a :: st1, b :: st2 => a = b && streq st1 st2

/-- The same for an abbreviation of `st1`, with `length` bytes already passed. -/
def streqabbr (length : Nat) : Bytes → Bytes → Bool
  | [], [] => true
  | [], c :: _ => c = equalsSign
  | _ :: _, [] => minAbbrLen ≤ length
  | a :: st1, b :: st2 =>
    if a = b then streqabbr (length + 1) st1 st2 else minAbbrLen ≤ length && b = equalsSign

/-- The descriptor of that name, else the only one with a name that it abbreviates. -/
def findLongOption (usage : List (Descriptor ι)) (longoptName : Bytes) : Option (Descriptor ι) :=
  match usage.find? (streq ·.longopt longoptName) with
  | some descriptor => some descriptor
  | none =>
    match usage.filter (streqabbr 0 ·.longopt longoptName) with
    | [descriptor] => some descriptor
    | _ => none

/-- The descriptor for unknown options. -/
def dummyDescriptor (usage : List (Descriptor ι)) : Option (Descriptor ι) :=
  usage.find? fun descriptor => descriptor.shortopt = [] ∧ descriptor.longopt = []

/-- What an option gives, and whether the next word is its argument. `none` is an illegal
argument. -/
def performOption (descriptor : Option (Descriptor ι)) (optarg : Option Bytes) (detached : Bool) :
    Option (List (ParsedOption ι) × Bool) :=
  match descriptor with
  | none => some ([], false)
  | some descriptor =>
    match descriptor.checkArg optarg with
    | .illegal => none
    | .ok => some ([⟨descriptor.index, descriptor.type, optarg⟩], detached && optarg.isSome)
    | .none => some ([⟨descriptor.index, descriptor.type, none⟩], false)

/-- `longoptName` is the word behind its two dashes. -/
def parseLongOption (usage : List (Descriptor ι)) (longoptName : Bytes) (next : Option Bytes) :
    Option (List (ParsedOption ι) × Bool) :=
  let descriptor := (findLongOption usage longoptName).or (dummyDescriptor usage)
  match longoptName.dropWhile (· ≠ equalsSign) with
  | _ :: attached => performOption descriptor (some attached) false
  | [] => performOption descriptor next true

/-- The group of short options behind a single dash. An argument ends the group. -/
def parseShortOptions (usage : List (Descriptor ι)) :
    Bytes → Option Bytes → Option (List (ParsedOption ι) × Bool)
  | [], _ => some ([], false)
  | c :: rest, next =>
    let descriptor : Option (Descriptor ι) :=
      (usage.find? (·.shortopt.contains c)).or (dummyDescriptor usage)
    let optarg := if rest = [] then next else some rest
    match descriptor.map fun descriptor => descriptor.checkArg optarg with
    | some ArgStatus.ok => performOption descriptor optarg (rest = [])
    | _ => do
      let (first, _) ← performOption descriptor optarg false
      let (others, usesNext) ← parseShortOptions usage rest next
      return (first ++ others, usesNext)

def isOptionWord (param : Bytes) : Bool := [dash] <+: param ∧ param ≠ [dash]

def parseOptionWord (usage : List (Descriptor ι)) (param : Bytes) (next : Option Bytes) :
    Option (List (ParsedOption ι) × Bool) :=
  if dashDash <+: param then parseLongOption usage (param.drop 2) next
  else parseShortOptions usage (param.drop 1) next

/-- The options and the other arguments, in their order. -/
def parseArgs (usage : List (Descriptor ι)) :
    List Bytes → Option (List (ParsedOption ι) × List Bytes)
  | [] => some ([], [])
  | [param] =>
    if !isOptionWord param then some ([], [param])
    else if param = dashDash then some ([], [])
    else do
      let (opts, _) ← parseOptionWord usage param none
      return (opts, [])
  | param :: next :: rest =>
    if !isOptionWord param then do
      let (opts, nonops) ← parseArgs usage (next :: rest)
      return (opts, param :: nonops)
    else if param = dashDash then some ([], next :: rest)
    else do
      let (first, usesNext) ← parseOptionWord usage param (some next)
      (if usesNext then parseArgs usage rest else parseArgs usage (next :: rest)).map
        fun parsed => (first ++ parsed.1, parsed.2)

end Parser

section LongNames

variable {ι : Type*} {usage : List (Descriptor ι)} {name attached : Bytes}

theorem streq_takeWhile {st1 : Bytes} (h : equalsSign ∉ st1) (name : Bytes) :
    streq st1 (name.takeWhile (· ≠ equalsSign)) = streq st1 name := by
  induction st1 generalizing name with
  | nil =>
    cases name with
    | nil => rfl
    | cons c rest => by_cases hc : c = equalsSign <;> simp [streq, hc]
  | cons a st1 ih =>
    obtain ⟨ha, hrest⟩ := List.ne_and_not_mem_of_not_mem_cons h
    cases name with
    | nil => rfl
    | cons c rest =>
      by_cases hc : c = equalsSign
      · simp [streq, hc, Ne.symm ha]
      · simpa [streq, hc] using congrArg (decide (a = c) && ·) (ih hrest rest)

theorem streqabbr_takeWhile {st1 : Bytes} (h : equalsSign ∉ st1) (length : Nat) (name : Bytes) :
    streqabbr length st1 (name.takeWhile (· ≠ equalsSign)) = streqabbr length st1 name := by
  induction st1 generalizing length name with
  | nil =>
    cases name with
    | nil => rfl
    | cons c rest => by_cases hc : c = equalsSign <;> simp [streqabbr, hc]
  | cons a st1 ih =>
    obtain ⟨ha, hrest⟩ := List.ne_and_not_mem_of_not_mem_cons h
    cases name with
    | nil => rfl
    | cons c rest =>
      by_cases hc : c = equalsSign
      · simp [streqabbr, hc, Ne.symm ha]
      · by_cases hac : a = c
        · subst hac
          simpa [streqabbr, hc] using ih hrest (length + 1) rest
        · simp [streqabbr, hc, hac]

theorem findLongOption_takeWhile (h : ∀ d ∈ usage, equalsSign ∉ d.longopt) (name : Bytes) :
    findLongOption usage (name.takeWhile (· ≠ equalsSign)) = findLongOption usage name := by
  have hexact : usage.find? (streq ·.longopt (name.takeWhile (· ≠ equalsSign))) =
      usage.find? (streq ·.longopt name) := by
    induction usage with
    | nil => rfl
    | cons d rest ih =>
      rw [List.find?_cons, List.find?_cons, streq_takeWhile (h d List.mem_cons_self),
        ih fun d hd => h d (List.mem_cons_of_mem _ hd)]
  have habbr : usage.filter (streqabbr 0 ·.longopt (name.takeWhile (· ≠ equalsSign))) =
      usage.filter (streqabbr 0 ·.longopt name) :=
    List.filter_congr fun d hd => streqabbr_takeWhile (h d hd) 0 name
  rw [findLongOption, findLongOption, hexact, habbr]

theorem parseLongOption_attached (h : ∀ d ∈ usage, equalsSign ∉ d.longopt)
    (hname : equalsSign ∉ name) (next : Option Bytes) :
    parseLongOption usage (name ++ equalsSign :: attached) next =
      performOption ((findLongOption usage name).or (dummyDescriptor usage)) (some attached)
        false := by
  have hne : ∀ c ∈ name, decide (c ≠ equalsSign) = true := fun c hc =>
    decide_eq_true (ne_of_mem_of_not_mem hc hname)
  have htake : (name ++ equalsSign :: attached).takeWhile (· ≠ equalsSign) = name := by
    rw [List.takeWhile_append_of_pos hne]
    simp
  have hdrop : (name ++ equalsSign :: attached).dropWhile (· ≠ equalsSign) =
      equalsSign :: attached := by
    rw [List.dropWhile_append_of_pos hne]
    simp
  rw [parseLongOption, hdrop, ← findLongOption_takeWhile h, htake]

theorem eq_of_streq {st1 : Bytes} (hname : equalsSign ∉ name) (h : streq st1 name = true) :
    name = st1 := by
  induction st1 generalizing name with
  | nil =>
    cases name with
    | nil => rfl
    | cons c rest =>
      have hc : c = equalsSign := by simpa [streq] using h
      simp [hc] at hname
  | cons a st1 ih =>
    cases name with
    | nil => simp [streq] at h
    | cons c rest =>
      obtain ⟨-, hrest⟩ := List.ne_and_not_mem_of_not_mem_cons hname
      obtain ⟨hac, h⟩ : a = c ∧ streq st1 rest = true := by simpa [streq] using h
      rw [hac, ih hrest h]

theorem prefix_of_streqabbr {st1 : Bytes} {length : Nat} (hname : equalsSign ∉ name)
    (h : streqabbr length st1 name = true) :
    name <+: st1 ∧ (name = st1 ∨ minAbbrLen ≤ length + name.length) := by
  induction st1 generalizing length name with
  | nil =>
    cases name with
    | nil => simp
    | cons c rest =>
      have hc : c = equalsSign := by simpa [streqabbr] using h
      simp [hc] at hname
  | cons a st1 ih =>
    cases name with
    | nil => exact ⟨List.nil_prefix, Or.inr (by simpa [streqabbr] using h)⟩
    | cons c rest =>
      obtain ⟨hc, hrest⟩ := List.ne_and_not_mem_of_not_mem_cons hname
      by_cases hac : a = c
      · subst hac
        rw [streqabbr, if_pos rfl] at h
        obtain ⟨hpre, hlen⟩ := ih hrest h
        refine ⟨List.prefix_cons_inj a |>.mpr hpre, hlen.imp (congrArg _) fun hlen => ?_⟩
        rw [List.length_cons]
        omega
      · simp [streqabbr, hac, Ne.symm hc] at h

theorem prefix_of_findLongOption {d : Descriptor ι} (hname : equalsSign ∉ name)
    (h : findLongOption usage name = some d) :
    name <+: d.longopt ∧ (name = [] → d.longopt = []) := by
  rw [findLongOption] at h
  split at h
  · rename_i hfind
    obtain rfl := Option.some.inj h
    have hstreq := List.find?_some hfind
    have heq := eq_of_streq hname hstreq
    exact ⟨heq ▸ List.prefix_rfl, fun hnil => heq ▸ hnil⟩
  · split at h
    · rename_i hfilter
      obtain rfl := Option.some.inj h
      have habbr := (List.mem_filter.mp (hfilter ▸ List.mem_singleton_self _)).2
      obtain ⟨hpre, hlen⟩ := prefix_of_streqabbr hname habbr
      refine ⟨hpre, fun hnil => ?_⟩
      rcases hlen with heq | hlen
      · rw [← heq, hnil]
      · simp [hnil, minAbbrLen] at hlen
    · simp at h

end LongNames

section Gives

variable {ι : Type*} {usage : List (Descriptor ι)} {o : ParsedOption ι}

/-- `o` comes from a descriptor whose check accepts the argument that it keeps. -/
def Descriptor.Gives (descriptor : Descriptor ι) (o : ParsedOption ι) : Prop :=
  descriptor.index = o.index ∧ descriptor.type = o.type ∧
    (descriptor.checkArg o.arg = .ok ∨ o.arg = none ∧ ∃ arg, descriptor.checkArg arg = .none)

theorem gives_of_performOption {descriptor : Option (Descriptor ι)} {optarg : Option Bytes}
    {detached usesNext : Bool} {opts : List (ParsedOption ι)}
    (h : performOption descriptor optarg detached = some (opts, usesNext)) (ho : o ∈ opts) :
    ∃ d, descriptor = some d ∧ d.Gives o := by
  cases descriptor with
  | none =>
    obtain ⟨rfl, -⟩ := Prod.mk.inj (Option.some.inj h)
    simp at ho
  | some d =>
    refine ⟨d, rfl, ?_⟩
    rw [performOption] at h
    cases hcheck : d.checkArg optarg with
    | illegal => simp [hcheck] at h
    | ok =>
      simp only [hcheck, Option.some.injEq, Prod.mk.injEq] at h
      rw [← h.1, List.mem_singleton] at ho
      subst ho
      exact ⟨rfl, rfl, Or.inl hcheck⟩
    | none =>
      simp only [hcheck, Option.some.injEq, Prod.mk.injEq] at h
      rw [← h.1, List.mem_singleton] at ho
      subst ho
      exact ⟨rfl, rfl, Or.inr ⟨rfl, optarg, hcheck⟩⟩

theorem mem_of_dummyDescriptor {d : Descriptor ι} (h : dummyDescriptor usage = some d) :
    d ∈ usage := List.mem_of_find?_eq_some h

theorem mem_of_findLongOption {name : Bytes} {d : Descriptor ι}
    (h : findLongOption usage name = some d) : d ∈ usage := by
  rw [findLongOption] at h
  split at h
  · rename_i hfind
    obtain rfl := Option.some.inj h
    exact List.mem_of_find?_eq_some hfind
  · split at h
    · rename_i hfilter
      obtain rfl := Option.some.inj h
      exact (List.mem_filter.mp (hfilter ▸ List.mem_singleton_self _)).1
    · simp at h

theorem of_shortOption {c : UInt8} {d : Descriptor ι}
    (h : (usage.find? (·.shortopt.contains c)).or (dummyDescriptor usage) = some d) :
    d ∈ usage ∧ (d.shortopt ≠ [] ∨ d.longopt = []) := by
  rcases Option.or_eq_some_iff.mp h with h | ⟨-, h⟩
  · refine ⟨List.mem_of_find?_eq_some h, Or.inl fun hnil => ?_⟩
    simpa [hnil] using List.find?_some h
  · refine ⟨mem_of_dummyDescriptor h, Or.inr ?_⟩
    have hdummy := List.find?_some h
    exact (of_decide_eq_true hdummy).2

theorem mem_of_longOption {name : Bytes} {d : Descriptor ι}
    (h : (findLongOption usage name).or (dummyDescriptor usage) = some d) : d ∈ usage := by
  rcases Option.or_eq_some_iff.mp h with h | ⟨-, h⟩
  · exact mem_of_findLongOption h
  · exact mem_of_dummyDescriptor h

theorem gives_of_parseLongOption {name : Bytes} {next : Option Bytes} {usesNext : Bool}
    {opts : List (ParsedOption ι)} (h : parseLongOption usage name next = some (opts, usesNext))
    (ho : o ∈ opts) :
    ∃ d, (findLongOption usage name).or (dummyDescriptor usage) = some d ∧ d.Gives o := by
  simp only [parseLongOption] at h
  split at h
  · exact gives_of_performOption h ho
  · exact gives_of_performOption h ho

theorem gives_of_parseShortOptions {group : Bytes} {next : Option Bytes} {usesNext : Bool}
    {opts : List (ParsedOption ι)}
    (h : parseShortOptions usage group next = some (opts, usesNext)) (ho : o ∈ opts) :
    ∃ d ∈ usage, (d.shortopt ≠ [] ∨ d.longopt = []) ∧ d.Gives o := by
  induction group generalizing opts usesNext with
  | nil =>
    obtain ⟨rfl, -⟩ := Prod.mk.inj (Option.some.inj h)
    simp at ho
  | cons c rest ih =>
    rw [parseShortOptions] at h
    dsimp only at h
    split at h
    · obtain ⟨d, hd, hgives⟩ := gives_of_performOption h ho
      obtain ⟨hmem, hshort⟩ := of_shortOption hd
      exact ⟨d, hmem, hshort, hgives⟩
    · obtain ⟨⟨first, used⟩, hfirst, h⟩ := Option.bind_eq_some_iff.mp h
      obtain ⟨⟨others, used'⟩, hothers, h⟩ := Option.bind_eq_some_iff.mp h
      obtain ⟨rfl, -⟩ := Prod.mk.inj (Option.some.inj h)
      rcases List.mem_append.mp ho with ho | ho
      · obtain ⟨d, hd, hgives⟩ := gives_of_performOption hfirst ho
        obtain ⟨hmem, hshort⟩ := of_shortOption hd
        exact ⟨d, hmem, hshort, hgives⟩
      · exact ih hothers ho

theorem gives_of_parseOptionWord {param : Bytes} {next : Option Bytes} {usesNext : Bool}
    {opts : List (ParsedOption ι)} (h : parseOptionWord usage param next = some (opts, usesNext))
    (ho : o ∈ opts) : ∃ d ∈ usage, d.Gives o := by
  rw [parseOptionWord] at h
  split at h
  · obtain ⟨d, hd, hgives⟩ := gives_of_parseLongOption h ho
    exact ⟨d, mem_of_longOption hd, hgives⟩
  · obtain ⟨d, hd, -, hgives⟩ := gives_of_parseShortOptions h ho
    exact ⟨d, hd, hgives⟩

theorem arg_of_performOption {descriptor : Option (Descriptor ι)} {optarg : Option Bytes}
    {detached usesNext : Bool} {opts : List (ParsedOption ι)} {A : Bytes}
    (h : performOption descriptor optarg detached = some (opts, usesNext)) (ho : o ∈ opts)
    (harg : o.arg = some A) : optarg = some A := by
  cases descriptor with
  | none =>
    obtain ⟨rfl, -⟩ := Prod.mk.inj (Option.some.inj h)
    simp at ho
  | some d =>
    rw [performOption] at h
    cases hcheck : d.checkArg optarg with
    | illegal => simp [hcheck] at h
    | ok =>
      simp only [hcheck, Option.some.injEq, Prod.mk.injEq] at h
      rw [← h.1, List.mem_singleton] at ho
      rwa [ho] at harg
    | none =>
      simp only [hcheck, Option.some.injEq, Prod.mk.injEq] at h
      rw [← h.1, List.mem_singleton] at ho
      simp [ho] at harg

theorem arg_of_parseLongOption {name : Bytes} {next : Option Bytes} {usesNext : Bool}
    {opts : List (ParsedOption ι)} {A : Bytes}
    (h : parseLongOption usage name next = some (opts, usesNext)) (ho : o ∈ opts)
    (harg : o.arg = some A) :
    name = name.takeWhile (· ≠ equalsSign) ++ equalsSign :: A ∨
      equalsSign ∉ name ∧ next = some A := by
  have hsplit := List.takeWhile_append_dropWhile (p := (· ≠ equalsSign)) (l := name)
  rw [parseLongOption] at h
  split at h
  · rename_i c attached hdrop
    have hc : c = equalsSign := by
      have hhead := List.head?_dropWhile_not (fun c => decide (c ≠ equalsSign)) name
      rw [hdrop] at hhead
      simpa using hhead
    obtain rfl := Option.some.inj (arg_of_performOption h ho harg)
    left
    rw [hdrop, hc] at hsplit
    exact hsplit.symm
  · rename_i hdrop
    refine Or.inr ⟨fun hmem => ?_, arg_of_performOption h ho harg⟩
    simpa using List.dropWhile_eq_nil_iff.mp hdrop equalsSign hmem

theorem gives_of_parseArgs {args : List Bytes} {opts : List (ParsedOption ι)}
    {nonops : List Bytes} (h : parseArgs usage args = some (opts, nonops)) (ho : o ∈ opts) :
    ∃ d ∈ usage, d.Gives o := by
  fun_induction parseArgs usage args generalizing opts nonops with
  | case1 =>
    obtain ⟨rfl, -⟩ := Prod.mk.inj (Option.some.inj h)
    simp at ho
  | case2 =>
    obtain ⟨rfl, -⟩ := Prod.mk.inj (Option.some.inj h)
    simp at ho
  | case3 =>
    obtain ⟨rfl, -⟩ := Prod.mk.inj (Option.some.inj h)
    simp at ho
  | case4 param hword hne =>
    obtain ⟨⟨first, used⟩, hfirst, h⟩ := Option.bind_eq_some_iff.mp h
    obtain ⟨rfl, -⟩ := Prod.mk.inj (Option.some.inj h)
    exact gives_of_parseOptionWord hfirst ho
  | case5 param next rest hword ih =>
    obtain ⟨⟨others, nonops'⟩, hothers, h⟩ := Option.bind_eq_some_iff.mp h
    obtain ⟨rfl, -⟩ := Prod.mk.inj (Option.some.inj h)
    exact ih hothers ho
  | case6 =>
    obtain ⟨rfl, -⟩ := Prod.mk.inj (Option.some.inj h)
    simp at ho
  | case7 param next rest hword hne ih ih' =>
    obtain ⟨⟨first, used⟩, hfirst, h⟩ := Option.bind_eq_some_iff.mp h
    obtain ⟨⟨others, nonops'⟩, hothers, h⟩ := Option.map_eq_some_iff.mp h
    obtain ⟨rfl, -⟩ := Prod.mk.inj h
    rcases List.mem_append.mp ho with ho | ho
    · exact gives_of_parseOptionWord hfirst ho
    · cases used with
      | false => exact ih' hothers ho
      | true => exact ih hothers ho

end Gives

end Ucg
