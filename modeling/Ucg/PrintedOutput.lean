import Ucg.Print

/-! What can be read off the printed text: the lines that were printed. -/

namespace Ucg

structure PrintedLine where
  filename : Bytes
  lineNumber : Option Nat
  column : Option Nat
  text : Bytes
  deriving DecidableEq, Repr

def MatchList.printedLines (ml : MatchList) (ctx : OutputContext) : List PrintedLine :=
  ml.matchList.map fun m => {
    filename := noDotslash ml.filename
    lineNumber := if ctx.printLineNumber then some m.mLineNumber else none
    column := if ctx.printLineNumber && ctx.printColumn then some (m.mPreMatch.length + 1) else none
    text := m.line }

section Reading

/-- The text up to a delimiter, and the text behind it. -/
def field (delimiter : UInt8) (s : Bytes) : Bytes × Bytes :=
  (s.takeWhile (· ≠ delimiter), (s.dropWhile (· ≠ delimiter)).tail)

variable (ctx : OutputContext)

def readLine (filename s : Bytes) : PrintedLine × Bytes :=
  if ctx.printLineNumber then
    let (number, s) := field colon s
    if ctx.printColumn then
      let (column, s) := field colon s
      let (text, s) := field newline s
      (⟨filename, some (decimalValue number), some (decimalValue column), text⟩, s)
    else
      let (text, s) := field newline s
      (⟨filename, some (decimalValue number), none, text⟩, s)
  else
    let (text, s) := field newline s
    (⟨filename, none, none, text⟩, s)

/-- Every line has its filename in front. -/
def readPrefixed : Nat → Bytes → List PrintedLine
  | 0, _ | _, [] => []
  | fuel + 1, s =>
    let (filename, s) := field ctx.fileSeparator s
    let (line, s) := readLine ctx filename s
    line :: readPrefixed fuel s

/-- A filename, then its lines, up to an empty line or the end. -/
def readGrouped : Nat → Option Bytes → Bytes → List PrintedLine
  | 0, _, _ | _, _, [] => []
  | fuel + 1, none, s =>
    let (filename, s) := field ctx.fileSeparator s
    readGrouped fuel (some filename) s
  | fuel + 1, some filename, c :: s =>
    if c = newline then readGrouped fuel none s
    else
      let (line, s) := readLine ctx filename (c :: s)
      line :: readGrouped fuel (some filename) s

def readOutput (s : Bytes) : List PrintedLine :=
  if ctx.prefixFile then readPrefixed ctx s.length s else readGrouped ctx s.length none s

end Reading

/-- The printed filename does not contain what ends it, and the printed lines are lines. -/
structure MatchList.Readable (ml : MatchList) (ctx : OutputContext) : Prop where
  filename : ctx.fileSeparator ∉ noDotslash ml.filename
  line : ∀ m ∈ ml.matchList, newline ∉ m.line

section RoundTrip

variable {ctx : OutputContext} {fuel : Nat} {lists : List MatchList} {ml : MatchList} {m : Match}

theorem field_append {delimiter : UInt8} {front : Bytes} (h : delimiter ∉ front) (rest : Bytes) :
    field delimiter (front ++ delimiter :: rest) = (front, rest) := by
  have hall : ∀ c ∈ front, decide (c ≠ delimiter) = true := fun c hc =>
    decide_eq_true fun hce => h (hce ▸ hc)
  have htake : (front ++ delimiter :: rest).takeWhile (· ≠ delimiter) = front := by
    rw [List.takeWhile_append_of_pos hall]
    simp
  have hdrop : (front ++ delimiter :: rest).dropWhile (· ≠ delimiter) = delimiter :: rest := by
    rw [List.dropWhile_append_of_pos hall]
    simp
  rw [field, htake, hdrop, List.tail_cons]

theorem colon_notMem_toDecimal (n : Nat) : colon ∉ toDecimal n := by
  intro h
  have hdigit := isDigit_of_mem_toDecimal h
  simp [isDigit, colon] at hdigit

theorem readLine_print (hcolor : ctx.enableColor = false) (hline : newline ∉ m.line)
    (filename rest : Bytes) :
    readLine ctx filename (ctx.printNumbers m ++ ctx.printText m ++ rest) =
      (⟨filename, if ctx.printLineNumber then some m.mLineNumber else none,
        if ctx.printLineNumber && ctx.printColumn then some (m.mPreMatch.length + 1) else none,
        m.line⟩, rest) := by
  have hactive (color : Bytes) : ctx.active color = [] := by simp [OutputContext.active, hcolor]
  have htext : ctx.printText m = m.line ++ [newline] := by
    simp [OutputContext.printText, hactive, Match.line]
  have hfield : field newline (m.line ++ newline :: rest) = (m.line, rest) := field_append hline rest
  rw [htext]
  cases hnumber : ctx.printLineNumber with
  | false => simp [readLine, OutputContext.printNumbers, hnumber, hfield]
  | true =>
    cases hcolumn : ctx.printColumn with
    | false =>
      simp [readLine, OutputContext.printNumbers, hnumber, hcolumn, hactive,
        field_append (colon_notMem_toDecimal _), hfield, decimalValue_toDecimal]
    | true =>
      simp [readLine, OutputContext.printNumbers, hnumber, hcolumn, hactive,
        field_append (colon_notMem_toDecimal _), hfield, decimalValue_toDecimal]

theorem readPrefixed_line {s : Bytes} (h : s ≠ []) :
    readPrefixed ctx (fuel + 1) s =
      (readLine ctx (field ctx.fileSeparator s).1 (field ctx.fileSeparator s).2).1 ::
        readPrefixed ctx fuel (readLine ctx (field ctx.fileSeparator s).1 (field ctx.fileSeparator s).2).2 := by
  cases s with
  | nil => exact (h rfl).elim
  | cons c s => rfl

theorem readGrouped_header {s : Bytes} (h : s ≠ []) :
    readGrouped ctx (fuel + 1) none s =
      readGrouped ctx fuel (some (field ctx.fileSeparator s).1) (field ctx.fileSeparator s).2 := by
  cases s with
  | nil => exact (h rfl).elim
  | cons c s => rfl

theorem readPrefixed_matches (hcolor : ctx.enableColor = false) (hprefixed : ctx.prefixFile = true)
    {filename : Bytes} (hname : ctx.fileSeparator ∉ noDotslash filename) {found : List Match}
    (hline : ∀ m ∈ found, newline ∉ m.line) {rest : Bytes}
    (hfuel : (found.flatMap (ctx.printMatch filename) ++ rest).length ≤ fuel) :
    ∃ fuel', rest.length ≤ fuel' ∧
      readPrefixed ctx fuel (found.flatMap (ctx.printMatch filename) ++ rest) =
        MatchList.printedLines ⟨filename, found⟩ ctx ++ readPrefixed ctx fuel' rest := by
  induction found generalizing fuel with
  | nil => exact ⟨fuel, hfuel, rfl⟩
  | cons m found ih =>
    have hactive (color : Bytes) : ctx.active color = [] := by simp [OutputContext.active, hcolor]
    set behind := found.flatMap (ctx.printMatch filename) ++ rest with hbehind
    have htext : (m :: found).flatMap (ctx.printMatch filename) ++ rest =
        noDotslash filename ++ ctx.fileSeparator :: (ctx.printNumbers m ++ ctx.printText m ++ behind) := by
      simp [OutputContext.printMatch, OutputContext.printFilename, hactive, hprefixed, hbehind]
    rw [htext] at hfuel ⊢
    simp only [List.length_append, List.length_cons] at hfuel
    cases fuel with
    | zero => omega
    | succ fuel =>
      have hne : noDotslash filename ++ ctx.fileSeparator ::
          (ctx.printNumbers m ++ ctx.printText m ++ behind) ≠ [] := by simp
      obtain ⟨fuel', hle, hread⟩ := ih (fun m hm => hline m (List.mem_cons_of_mem _ hm))
        (show behind.length ≤ fuel by omega)
      refine ⟨fuel', hle, ?_⟩
      rw [readPrefixed_line hne, field_append hname,
        readLine_print hcolor (hline m List.mem_cons_self), hread]
      rfl

theorem readGrouped_matches (hcolor : ctx.enableColor = false) (hprefixed : ctx.prefixFile = false)
    (hnumber : ctx.printLineNumber = true) (filename : Bytes) {found : List Match}
    (hline : ∀ m ∈ found, newline ∉ m.line) {rest : Bytes}
    (hfuel : (found.flatMap (ctx.printMatch filename) ++ rest).length ≤ fuel) :
    ∃ fuel', rest.length ≤ fuel' ∧
      readGrouped ctx fuel (some (noDotslash filename))
          (found.flatMap (ctx.printMatch filename) ++ rest) =
        MatchList.printedLines ⟨filename, found⟩ ctx ++
          readGrouped ctx fuel' (some (noDotslash filename)) rest := by
  induction found generalizing fuel with
  | nil => exact ⟨fuel, hfuel, rfl⟩
  | cons m found ih =>
    set behind := found.flatMap (ctx.printMatch filename) ++ rest with hbehind
    have htext : (m :: found).flatMap (ctx.printMatch filename) ++ rest =
        ctx.printNumbers m ++ ctx.printText m ++ behind := by
      simp [OutputContext.printMatch, hprefixed, hbehind]
    -- a line begins with its number, so it is not the empty line between two groups
    obtain ⟨c, digits, hdigits⟩ := List.exists_cons_of_ne_nil (toDecimal_ne_nil (n := m.mLineNumber))
    have hc : c ≠ newline := by
      have hdigit := isDigit_of_mem_toDecimal (hdigits ▸ List.mem_cons_self : c ∈ toDecimal m.mLineNumber)
      rintro rfl
      simp [isDigit, newline] at hdigit
    obtain ⟨tail, htail⟩ : ∃ tail, ctx.printNumbers m ++ ctx.printText m ++ behind = c :: tail := by
      simp [OutputContext.printNumbers, hnumber, OutputContext.active, hcolor, hdigits]
    have hread := readLine_print hcolor (hline m List.mem_cons_self) (noDotslash filename) behind
    have hlength := congrArg List.length htail
    rw [htext] at hfuel ⊢
    simp only [OutputContext.printText, List.length_append, List.length_cons] at hfuel hlength
    rw [htail] at hread ⊢
    cases fuel with
    | zero => omega
    | succ fuel =>
      obtain ⟨fuel', hle, hrest⟩ := ih (fun m hm => hline m (List.mem_cons_of_mem _ hm))
        (show behind.length ≤ fuel by omega)
      refine ⟨fuel', hle, ?_⟩
      simp only [readGrouped, hc, if_false, hread, hrest]
      rfl

theorem readPrefixed_writeAll (hcolor : ctx.enableColor = false) (hprefixed : ctx.prefixFile = true)
    (h : ∀ ml ∈ lists, ml.Readable ctx) (first : Bool)
    (hfuel : (writeAll ctx first lists).length ≤ fuel) :
    readPrefixed ctx fuel (writeAll ctx first lists) = lists.flatMap (·.printedLines ctx) := by
  induction lists generalizing fuel first with
  | nil => cases fuel <;> rfl
  | cons ml lists ih =>
    have hml := h ml List.mem_cons_self
    have hwrite : writeAll ctx first (ml :: lists) =
        ml.matchList.flatMap (ctx.printMatch ml.filename) ++ writeAll ctx true lists := by
      simp [writeAll, MatchList.write, MatchList.print, hprefixed]
    rw [hwrite] at hfuel ⊢
    obtain ⟨fuel', hle, hread⟩ := readPrefixed_matches hcolor hprefixed hml.filename hml.line hfuel
    rw [hread, ih (fun ml hml => h ml (List.mem_cons_of_mem _ hml)) true hle, List.flatMap_cons]

theorem readGrouped_list (hcolor : ctx.enableColor = false) (hprefixed : ctx.prefixFile = false)
    (hnumber : ctx.printLineNumber = true) (hml : ml.Readable ctx) {rest : Bytes}
    (hfuel : (ml.print ctx ++ rest).length ≤ fuel) :
    ∃ fuel', rest.length ≤ fuel' ∧
      readGrouped ctx fuel none (ml.print ctx ++ rest) =
        ml.printedLines ctx ++ readGrouped ctx fuel' (some (noDotslash ml.filename)) rest := by
  set found := ml.matchList.flatMap (ctx.printMatch ml.filename) ++ rest with hfound
  have hprint : ml.print ctx ++ rest = noDotslash ml.filename ++ ctx.fileSeparator :: found := by
    simp [MatchList.print, OutputContext.printFilename, OutputContext.active, hcolor, hprefixed, hfound]
  rw [hprint] at hfuel ⊢
  simp only [List.length_append, List.length_cons] at hfuel
  cases fuel with
  | zero => omega
  | succ fuel =>
    have hne : noDotslash ml.filename ++ ctx.fileSeparator :: found ≠ [] := by simp
    obtain ⟨fuel', hle, hread⟩ := readGrouped_matches hcolor hprefixed hnumber ml.filename hml.line
      (show found.length ≤ fuel by omega)
    refine ⟨fuel', hle, ?_⟩
    rw [readGrouped_header hne, field_append hml.filename]
    exact hread

theorem readGrouped_writeAll (hcolor : ctx.enableColor = false) (hprefixed : ctx.prefixFile = false)
    (hnumber : ctx.printLineNumber = true) (h : ∀ ml ∈ lists, ml.Readable ctx)
    (filename : Option Bytes) (hfuel : (writeAll ctx filename.isSome lists).length ≤ fuel) :
    readGrouped ctx fuel filename (writeAll ctx filename.isSome lists) =
      lists.flatMap (·.printedLines ctx) := by
  induction lists generalizing fuel filename with
  | nil => cases fuel <;> cases filename <;> rfl
  | cons ml lists ih =>
    have hlist {fuel : Nat} (hle : (ml.print ctx ++ writeAll ctx true lists).length ≤ fuel) :
        readGrouped ctx fuel none (ml.print ctx ++ writeAll ctx true lists) =
          (ml :: lists).flatMap (·.printedLines ctx) := by
      obtain ⟨fuel', hle', hread⟩ :=
        readGrouped_list hcolor hprefixed hnumber (h ml List.mem_cons_self) hle
      rw [hread, List.flatMap_cons]
      exact congrArg _ (ih (fun ml hml => h ml (List.mem_cons_of_mem _ hml)) (some _) hle')
    cases filename with
    | none => exact hlist hfuel
    | some filename =>
      -- the empty line ends the group before
      have hwrite : writeAll ctx true (ml :: lists) =
          newline :: (ml.print ctx ++ writeAll ctx true lists) := by
        rw [writeAll, MatchList.write, hprefixed]
        rfl
      rw [Option.isSome_some, hwrite] at hfuel ⊢
      cases fuel with
      | zero => simp at hfuel
      | succ fuel =>
        rw [readGrouped, if_pos rfl]
        exact hlist (Nat.le_of_succ_le_succ hfuel)

/-- From the text of any lists the printed lines can be read again, with their filenames, line
numbers and columns: either every line has its filename in front, or the lines are grouped and
numbered. -/
theorem readOutput_writeAll (hcolor : ctx.enableColor = false)
    (hmode : ctx.prefixFile = true ∨ ctx.printLineNumber = true)
    (h : ∀ ml ∈ lists, ml.Readable ctx) :
    readOutput ctx (writeAll ctx false lists) = lists.flatMap (·.printedLines ctx) := by
  cases hprefixed : ctx.prefixFile with
  | true =>
    rw [readOutput, if_pos hprefixed]
    exact readPrefixed_writeAll hcolor hprefixed h false le_rfl
  | false =>
    have hnumber := hmode.resolve_left (by simp [hprefixed])
    rw [readOutput, if_neg (by simp [hprefixed])]
    exact readGrouped_writeAll hcolor hprefixed hnumber h none le_rfl

end RoundTrip

end Ucg
