import Ucg.PrintedOutput

/-! What a terminal shows of the colored text: the same characters as without color, of which
the filenames, the line numbers and the matches are highlighted. -/

namespace Ucg

def esc : UInt8 := 27

def isLetter (c : UInt8) : Bool := (65 ≤ c && c ≤ 90) || (97 ≤ c && c ≤ 122)

/-- The graphic renditions since the last reset, and the escape sequence that has begun. -/
structure Screen where
  renditions : List Bytes := []
  escaped : Option Bytes := none

/-- A letter ends an escape sequence. `[..m` selects a rendition, where `[0m` resets all. -/
def Screen.endSequence (s : Screen) (params : Bytes) (c : UInt8) : Screen where
  renditions :=
    if c = 109 then if params = str "[0" then [] else s.renditions ++ [params] else s.renditions

/-- The characters on the screen, each with the renditions it is shown in. -/
def display : Screen → Bytes → List (UInt8 × List Bytes)
  | _, [] => []
  | s, c :: rest =>
    match s.escaped with
    | none =>
      if c = esc then display { s with escaped := some [] } rest
      else (c, s.renditions) :: display s rest
    | some params =>
      if isLetter c then display (s.endSequence params c) rest
      else display { s with escaped := some (params ++ [c]) } rest

/-- The characters shown in one rendition alone. -/
def shownIn (rendition : Bytes) (shown : List (UInt8 × List Bytes)) : Bytes :=
  (shown.filter (·.2 = [rendition])).map Prod.fst

def green : Bytes := str "[32;1"

def blackOnYellow : Bytes := str "[30;43;1"

def yellow : Bytes := str "[33;1"

structure MatchList.EscFree (ml : MatchList) : Prop where
  filename : esc ∉ ml.filename
  line : ∀ m ∈ ml.matchList, esc ∉ m.line

/-- The text leaves the screen as it was, and shows `plain`, with the three highlighted parts. -/
structure Shows (text plain names numbers matched : Bytes) : Prop where
  exists_shown : ∃ shown, (∀ rest, display {} (text ++ rest) = shown ++ display {} rest) ∧
    shown.map Prod.fst = plain ∧ shownIn green shown = names ∧ shownIn yellow shown = numbers ∧
    shownIn blackOnYellow shown = matched

section Shows

variable {text plain names numbers matched text' plain' names' numbers' matched' : Bytes}

theorem shownIn_append (rendition : Bytes) (shown shown' : List (UInt8 × List Bytes)) :
    shownIn rendition (shown ++ shown') = shownIn rendition shown ++ shownIn rendition shown' := by
  simp [shownIn]

theorem shownIn_map (rendition : Bytes) (renditions : List Bytes) (text : Bytes) :
    shownIn rendition (text.map fun c => (c, renditions)) =
      if renditions = [rendition] then text else [] := by
  by_cases h : renditions = [rendition]
  · simp [shownIn, h, List.filter_map, Function.comp_def]
  · simp [shownIn, h, List.filter_map, Function.comp_def]

theorem display_append {s : Screen} (hs : s.escaped = none) (h : esc ∉ text) (rest : Bytes) :
    display s (text ++ rest) = (text.map fun c => (c, s.renditions)) ++ display s rest := by
  induction text with
  | nil => rfl
  | cons c text ih =>
    have hc : c ≠ esc := fun hc => h (hc ▸ List.mem_cons_self)
    have ih := ih fun h' => h (List.mem_cons_of_mem _ h')
    rw [List.cons_append, display]
    simp [hs, hc, ih]

namespace Shows

theorem nil : Shows [] [] [] [] [] := ⟨[], fun _ => rfl, rfl, rfl, rfl, rfl⟩

theorem append (h : Shows text plain names numbers matched)
    (h' : Shows text' plain' names' numbers' matched') :
    Shows (text ++ text') (plain ++ plain') (names ++ names') (numbers ++ numbers')
      (matched ++ matched') := by
  obtain ⟨shown, hshown, rfl, rfl, rfl, rfl⟩ := h
  obtain ⟨shown', hshown', rfl, rfl, rfl, rfl⟩ := h'
  refine ⟨shown ++ shown', fun rest => ?_, List.map_append, shownIn_append .., shownIn_append ..,
    shownIn_append ..⟩
  rw [List.append_assoc, hshown, hshown', List.append_assoc]

theorem ofEscFree (h : esc ∉ text) : Shows text text [] [] [] := by
  refine ⟨text.map fun c => (c, []), fun rest => display_append rfl h rest,
    by simp [Function.comp_def], ?_, ?_, ?_⟩ <;>
    rw [shownIn_map, if_neg (by simp)]

/-- A color, some text in it, and the way back to the default. -/
theorem ofColor (color params : Bytes)
    (hcolor : ∀ rest, display {} (color ++ rest) = display { renditions := [params] } rest)
    (h : esc ∉ text) :
    Shows (color ++ text ++ defaultColorDefault) text (if params = green then text else [])
      (if params = yellow then text else []) (if params = blackOnYellow then text else []) := by
  refine ⟨text.map fun c => (c, [params]), fun rest => ?_, by simp [Function.comp_def], ?_, ?_, ?_⟩
  · have hreset : display { renditions := [params] } (defaultColorDefault ++ rest) = display {} rest := rfl
    rw [List.append_assoc, List.append_assoc, hcolor, display_append rfl h, hreset]
  · simp only [shownIn_map, List.cons.injEq, and_true]
  · simp only [shownIn_map, List.cons.injEq, and_true]
  · simp only [shownIn_map, List.cons.injEq, and_true]

theorem ofColorFilename (h : esc ∉ text) :
    Shows (defaultColorFilename ++ text ++ defaultColorDefault) text text [] [] := by
  have hshows := ofColor defaultColorFilename green (fun _ => rfl) h
  rwa [if_pos rfl, if_neg (by decide), if_neg (by decide)] at hshows

theorem ofColorLineno (h : esc ∉ text) :
    Shows (defaultColorLineno ++ text ++ defaultColorDefault) text [] text [] := by
  have hshows := ofColor defaultColorLineno yellow (fun _ => rfl) h
  rwa [if_neg (by decide), if_pos rfl, if_neg (by decide)] at hshows

theorem ofColorMatch (h : esc ∉ text) :
    Shows (defaultColorMatch ++ text ++ defaultColorDefault) text [] [] text := by
  have hshows := ofColor defaultColorMatch blackOnYellow (fun _ => rfl) h
  rwa [if_neg (by decide), if_neg (by decide), if_pos rfl] at hshows

theorem flatMap {α : Type*} {l : List α} {text plain names numbers matched : α → Bytes}
    (h : ∀ a ∈ l, Shows (text a) (plain a) (names a) (numbers a) (matched a)) :
    Shows (l.flatMap text) (l.flatMap plain) (l.flatMap names) (l.flatMap numbers)
      (l.flatMap matched) := by
  induction l with
  | nil => exact nil
  | cons a l ih =>
    simp only [List.flatMap_cons]
    exact (h a List.mem_cons_self).append (ih fun b hb => h b (List.mem_cons_of_mem _ hb))

end Shows

end Shows

section Print

variable (ctx : OutputContext) {filename : Bytes} {m : Match} {ml : MatchList} {lists : List MatchList}

def OutputContext.colored (ctx : OutputContext) : OutputContext := { ctx with enableColor := true }

def OutputContext.plain (ctx : OutputContext) : OutputContext := { ctx with enableColor := false }

@[simp] theorem colored_active (color : Bytes) : ctx.colored.active color = color := rfl

@[simp] theorem plain_active (color : Bytes) : ctx.plain.active color = [] := rfl

@[simp] theorem colored_fileSeparator : ctx.colored.fileSeparator = ctx.fileSeparator := rfl

@[simp] theorem plain_fileSeparator : ctx.plain.fileSeparator = ctx.fileSeparator := rfl

@[simp] theorem colored_prefixFile : ctx.colored.prefixFile = ctx.prefixFile := rfl

@[simp] theorem plain_prefixFile : ctx.plain.prefixFile = ctx.prefixFile := rfl

@[simp] theorem colored_printLineNumber : ctx.colored.printLineNumber = ctx.printLineNumber := rfl

@[simp] theorem plain_printLineNumber : ctx.plain.printLineNumber = ctx.printLineNumber := rfl

@[simp] theorem colored_printColumn : ctx.colored.printColumn = ctx.printColumn := rfl

@[simp] theorem plain_printColumn : ctx.plain.printColumn = ctx.printColumn := rfl

theorem esc_notMem_singleton {c : UInt8} (h : esc ≠ c) : esc ∉ [c] := by simpa using h

theorem esc_notMem_toDecimal (n : Nat) : esc ∉ toDecimal n := by
  intro h
  have hdigit := isDigit_of_mem_toDecimal h
  simp [isDigit, esc] at hdigit

theorem esc_notMem_noDotslash (h : esc ∉ filename) : esc ∉ noDotslash filename := by
  unfold noDotslash
  split
  · exact fun hmem => h (List.mem_of_mem_drop hmem)
  · exact h

theorem esc_ne_fileSeparator : esc ≠ ctx.fileSeparator := by
  unfold OutputContext.fileSeparator
  split
  · decide
  · split <;> decide

theorem shows_printFilename (h : esc ∉ filename) :
    Shows (ctx.colored.printFilename filename) (ctx.plain.printFilename filename)
      (noDotslash filename) [] [] := by
  have hname := Shows.ofColorFilename (esc_notMem_noDotslash h)
  have hsep := Shows.ofEscFree (esc_notMem_singleton (esc_ne_fileSeparator ctx))
  simpa [OutputContext.printFilename] using hname.append hsep

theorem shows_printNumbers :
    Shows (ctx.colored.printNumbers m) (ctx.plain.printNumbers m) []
      (if ctx.printLineNumber then toDecimal m.mLineNumber else []) [] := by
  have hcolon := Shows.ofEscFree (esc_notMem_singleton (show esc ≠ colon by decide))
  have hnumber := (Shows.ofColorLineno (esc_notMem_toDecimal m.mLineNumber)).append hcolon
  have hcolumn := hnumber.append
    ((Shows.ofEscFree (esc_notMem_toDecimal (m.mPreMatch.length + 1))).append hcolon)
  cases hline : ctx.printLineNumber with
  | false => simpa [OutputContext.printNumbers, hline] using Shows.nil
  | true =>
    cases hcol : ctx.printColumn with
    | false => simpa [OutputContext.printNumbers, hline, hcol] using hnumber
    | true => simpa [OutputContext.printNumbers, hline, hcol] using hcolumn

theorem shows_printText (h : esc ∉ m.line) :
    Shows (ctx.colored.printText m) (ctx.plain.printText m) [] [] m.mMatch := by
  simp only [Match.line, List.mem_append, not_or] at h
  have hnewline := Shows.ofEscFree (esc_notMem_singleton (show esc ≠ newline by decide))
  have hmatch := (Shows.ofEscFree h.1.1).append (Shows.ofColorMatch h.1.2)
  simpa [OutputContext.printText] using (hmatch.append (Shows.ofEscFree h.2)).append hnewline

theorem shows_printMatch (hname : esc ∉ filename) (h : esc ∉ m.line) :
    Shows (ctx.colored.printMatch filename m) (ctx.plain.printMatch filename m)
      (if ctx.prefixFile then noDotslash filename else [])
      (if ctx.printLineNumber then toDecimal m.mLineNumber else []) m.mMatch := by
  have hline := (shows_printNumbers ctx (m := m)).append (shows_printText ctx h)
  cases hprefixed : ctx.prefixFile with
  | false => simpa [OutputContext.printMatch, hprefixed] using hline
  | true =>
    simpa [OutputContext.printMatch, hprefixed] using (shows_printFilename ctx hname).append hline

/-- The filenames that are printed for a list: one in front, or one for each line. -/
def OutputContext.printedNames (ml : MatchList) : Bytes :=
  if ctx.prefixFile then ml.matchList.flatMap fun _ => noDotslash ml.filename
  else noDotslash ml.filename

def OutputContext.printedNumbers (ml : MatchList) : Bytes :=
  ml.matchList.flatMap fun m => if ctx.printLineNumber then toDecimal m.mLineNumber else []

theorem shows_print (h : ml.EscFree) :
    Shows (ml.print ctx.colored) (ml.print ctx.plain) (ctx.printedNames ml) (ctx.printedNumbers ml)
      (ml.matchList.flatMap (·.mMatch)) := by
  have hmatches := Shows.flatMap fun m hm => shows_printMatch ctx h.filename (h.line m hm)
  have hnone : (ml.matchList.flatMap fun _ => ([] : Bytes)) = [] := by simp
  cases hprefixed : ctx.prefixFile with
  | false =>
    simpa [MatchList.print, OutputContext.printedNames, OutputContext.printedNumbers, hprefixed, hnone]
      using (shows_printFilename ctx h.filename).append hmatches
  | true =>
    simpa [MatchList.print, OutputContext.printedNames, OutputContext.printedNumbers, hprefixed]
      using hmatches

theorem shows_writeAll (h : ∀ ml ∈ lists, ml.EscFree) (first : Bool) :
    Shows (writeAll ctx.colored first lists) (writeAll ctx.plain first lists)
      (lists.flatMap ctx.printedNames) (lists.flatMap ctx.printedNumbers)
      (lists.flatMap fun ml => ml.matchList.flatMap (·.mMatch)) := by
  induction lists generalizing first with
  | nil => exact Shows.nil
  | cons ml lists ih =>
    have hlists := ih (fun ml hml => h ml (List.mem_cons_of_mem _ hml)) true
    have hlist := (shows_print ctx (h ml List.mem_cons_self)).append hlists
    have hnewline := Shows.ofEscFree (esc_notMem_singleton (show esc ≠ newline by decide))
    by_cases hblank : (first && !ctx.prefixFile) = true
    · simpa [writeAll, MatchList.write, hblank] using hnewline.append hlist
    · simpa [writeAll, MatchList.write, hblank] using hlist

/-- On a terminal the colored output shows the characters of the output without color. The
filenames, the line numbers and the matches, and nothing else, are highlighted, each in its
color. -/
theorem display_writeAll (h : ∀ ml ∈ lists, ml.EscFree) :
    (display {} (writeAll ctx.colored false lists)).map Prod.fst = writeAll ctx.plain false lists ∧
      shownIn green (display {} (writeAll ctx.colored false lists)) =
        lists.flatMap ctx.printedNames ∧
      shownIn yellow (display {} (writeAll ctx.colored false lists)) =
        lists.flatMap ctx.printedNumbers ∧
      shownIn blackOnYellow (display {} (writeAll ctx.colored false lists)) =
        lists.flatMap fun ml => ml.matchList.flatMap (·.mMatch) := by
  obtain ⟨shown, hshown, hfields⟩ := shows_writeAll ctx h false
  have hdisplay := hshown []
  rw [List.append_nil, display, List.append_nil] at hdisplay
  rwa [hdisplay]

def twoLists : List MatchList :=
  [⟨str "./a", [⟨1, [], [120], [121]⟩, ⟨12, [9], [120], []⟩]⟩, ⟨str "b", [⟨3, [58], [120], []⟩]⟩]

theorem twoLists_escFree : ∀ ml ∈ twoLists, ml.EscFree := by
  intro ml hml
  rcases List.mem_pair.mp hml with rfl | rfl
  · exact ⟨by decide, by decide⟩
  · exact ⟨by decide, by decide⟩

theorem display_writeAll_twoLists :
    let ctx : OutputContext := ⟨true, true, true, false, false⟩
    shownIn blackOnYellow (display {} (writeAll ctx false twoLists)) = [120, 120, 120] ∧
      (display {} (writeAll ctx false twoLists)).map Prod.fst = writeAll ctx.plain false twoLists := by
  intro ctx
  obtain ⟨hplain, -, -, hmatched⟩ := display_writeAll ctx twoLists_escFree
  exact ⟨hmatched, hplain⟩

/-- The printed lines can be read again from what a terminal shows of the colored output. -/
theorem readOutput_display (hmode : ctx.prefixFile = true ∨ ctx.printLineNumber = true)
    (hfree : ∀ ml ∈ lists, ml.EscFree) (h : ∀ ml ∈ lists, ml.Readable ctx) :
    readOutput ctx.plain ((display {} (writeAll ctx.colored false lists)).map Prod.fst) =
      lists.flatMap (·.printedLines ctx) := by
  obtain ⟨shown, hshown, hplain, -⟩ := shows_writeAll ctx hfree false
  have hdisplay := hshown []
  rw [List.append_nil, display, List.append_nil] at hdisplay
  rw [hdisplay, hplain]
  apply readOutput_writeAll
  · show ctx.plain.enableColor = false
    rfl
  · exact hmode
  · exact fun ml hml => ⟨(h ml hml).filename, (h ml hml).line⟩

theorem readOutput_display_twoLists :
    let ctx : OutputContext := ⟨true, false, true, true, false⟩
    readOutput ctx.plain ((display {} (writeAll ctx false twoLists)).map Prod.fst) =
      [⟨str "a", some 1, some 1, str "xy"⟩, ⟨str "a", some 12, some 2, str "\tx"⟩,
        ⟨str "b", some 3, some 2, str ":x"⟩] := by
  intro ctx
  have hreadable : ∀ ml ∈ twoLists, ml.Readable ctx := by
    intro ml hml
    rcases List.mem_pair.mp hml with rfl | rfl
    · exact ⟨by decide, by decide⟩
    · exact ⟨by decide, by decide⟩
  have hread := readOutput_display ctx (Or.inr rfl) twoLists_escFree hreadable
  exact hread.trans (by decide)

end Print

end Ucg
