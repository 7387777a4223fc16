import Ucg.ArgParse
import Ucg.Lib.Iteration

/-! `ConvertRCFileToArgv`: one parameter a line, with comments and blank lines. The cursor of the
loop is the rest of the text, and what its lines say does not depend on where it stands in a line
end. -/

namespace Ucg

open ByteOrder Iteration

def carriageReturn : UInt8 := 13

def numberSign : UInt8 := 35

/-- `std::isspace` in the C locale. -/
def isspace (c : UInt8) : Bool := c = 32 ∨ 9 ≤ c ∧ c ≤ 13

def isParamByte (c : UInt8) : Bool := c ≠ carriageReturn ∧ c ≠ newline

/-- The text of a zero-terminated array. -/
def cString (array : Bytes) : Bytes := array.takeWhile (· ≠ nul)

/-- The text from the cursor on, and the parameters found before it. -/
structure RCState where
  pos : Bytes
  retval : List Bytes

/-- The part of the loop that meets something else than white space, in the file of the name. -/
def convertRCLine (name pos : Bytes) (retval : List Bytes) :
    Outcome RCState (Except ArgParseException (List Bytes)) :=
  if pos.head? = some numberSign then
    .next { pos := pos.dropWhile (· ≠ newline), retval := retval }
  else
    let param := cString (pos.takeWhile isParamByte)
    if param = dashDash then
      .done (.error ⟨str "Double-dash \"" ++ param ++ str "\" is not allowed in rc file \"" ++
        name ++ str "\"."⟩)
    else if param.head? ≠ some dash then
      .done (.error ⟨str "Non-option argument \"" ++ param ++
        str "\" is not allowed in rc file \"" ++ name ++ str "\"."⟩)
    else .next { pos := pos.dropWhile isParamByte, retval := retval ++ [param] }

/-- One evaluation of the loop. -/
def convertRCStep (name : Bytes) (s : RCState) :
    Outcome RCState (Except ArgParseException (List Bytes)) :=
  if s.pos = [] then .done (.ok s.retval)
  else
    let pos := s.pos.dropWhile isspace
    if pos = [] then .next { s with pos := pos } else convertRCLine name pos s.retval

def dropCarriageReturn (line : Bytes) : Bytes :=
  if line.getLast? = some carriageReturn then line.dropLast else line

/-- What a line says: a parameter, unless it is blank or a comment. -/
def lineParam (line : Bytes) : Option Bytes :=
  let param := (dropCarriageReturn line).dropWhile isspace
  if param = [] ∨ param.head? = some numberSign then none else some param

/-- The lines that are neither blank nor comments, without the white space in front of them. -/
def rcParams (content : Bytes) : List Bytes := (content.splitOn newline).filterMap lineParam

def IsRCOption (param : Bytes) : Prop := param.head? = some dash ∧ param ≠ dashDash

/-- Every carriage return is followed by a newline. -/
def ReturnsEndLines (content : Bytes) : Prop :=
  ∀ rest, carriageReturn :: rest <:+ content → rest.head? = some newline

variable {c : UInt8} {s t line : Bytes}

theorem ReturnsEndLines.suffix (h : ReturnsEndLines s) (ht : t <:+ s) : ReturnsEndLines t :=
  fun rest hrest => h rest (hrest.trans ht)

theorem returnsEndLines_of_not_mem (h : carriageReturn ∉ s) : ReturnsEndLines s :=
  fun _ hrest => absurd (hrest.subset List.mem_cons_self) h

theorem rcParams_of_not_mem (h : newline ∉ line) : rcParams line = (lineParam line).toList := by
  rw [rcParams, List.splitOn_eq_singleton h, List.filterMap_cons]
  cases lineParam line <;> rfl

theorem rcParams_line (h : newline ∉ line) (rest : Bytes) :
    rcParams (line ++ newline :: rest) = (lineParam line).toList ++ rcParams rest := by
  rw [rcParams, List.splitOn_append_cons_self_of_not_mem h, rcParams, List.filterMap_cons]
  cases lineParam line <;> rfl

theorem rcParams_nil : rcParams [] = [] := rfl

theorem rcParams_newline (rest : Bytes) : rcParams (newline :: rest) = rcParams rest :=
  rcParams_line (by simp : newline ∉ ([] : Bytes)) rest

theorem rcParams_eq (s : Bytes) : rcParams s =
    (lineParam (s.takeWhile (· ≠ newline))).toList ++ rcParams (s.dropWhile (· ≠ newline)) := by
  have hline : newline ∉ s.takeWhile (· ≠ newline) := delimiter_not_mem_takeWhile
  rcases dropWhile_cases s newline with ⟨hrest, hs⟩ | ⟨rest, hrest, hs⟩
  · rw [hrest, rcParams_nil, List.append_nil, ← rcParams_of_not_mem hline, ← hs]
  · rw [hrest, rcParams_newline, ← rcParams_line hline, ← hs]

theorem dropCarriageReturn_cons (hc : c ≠ carriageReturn) :
    dropCarriageReturn (c :: line) = c :: dropCarriageReturn line := by
  cases line with
  | nil => simp [dropCarriageReturn, hc]
  | cons d line =>
    rw [dropCarriageReturn, dropCarriageReturn, List.getLast?_cons_cons]
    split_ifs <;> rfl

theorem lineParam_cons_of_isspace (hc : isspace c = true) (hreturn : c = carriageReturn → line = []) :
    lineParam (c :: line) = lineParam line := by
  by_cases h : c = carriageReturn
  · rw [hreturn h, h]
    rfl
  · rw [lineParam, dropCarriageReturn_cons h, List.dropWhile_cons_of_pos hc, lineParam]

theorem isParamByte_of_not_isspace (hc : isspace c = false) : isParamByte c = true := by
  refine decide_eq_true ⟨?_, ?_⟩
  · rintro rfl
    exact absurd hc (by decide)
  · rintro rfl
    exact absurd hc (by decide)

theorem lineParam_cons_of_not_isspace (hc : isspace c = false) : lineParam (c :: line) =
    if c = numberSign then none else some (c :: dropCarriageReturn line) := by
  have hreturn := (of_decide_eq_true (isParamByte_of_not_isspace hc)).1
  rw [lineParam, dropCarriageReturn_cons hreturn, List.dropWhile_cons_of_neg (by simpa using hc)]
  simp

theorem ReturnsEndLines.takeWhile_eq_nil (h : ReturnsEndLines (carriageReturn :: s)) :
    s.takeWhile (· ≠ newline) = [] := by
  have hhead := h s List.suffix_rfl
  cases s with
  | nil => rfl
  | cons d s =>
    obtain rfl := Option.some.inj hhead
    rfl

/-- Leading white space says nothing, also where it goes on over line ends. -/
theorem rcParams_cons_of_isspace (h : ReturnsEndLines (c :: s)) (hc : isspace c = true) :
    rcParams (c :: s) = rcParams s := by
  by_cases hnewline : c = newline
  · rw [hnewline, rcParams_newline]
  · rw [rcParams_eq (c :: s), rcParams_eq s, List.takeWhile_cons_of_pos (by simpa using hnewline),
      List.dropWhile_cons_of_pos (by simpa using hnewline), lineParam_cons_of_isspace hc]
    rintro rfl
    exact h.takeWhile_eq_nil

theorem rcParams_dropWhile_isspace (h : ReturnsEndLines s) :
    rcParams (s.dropWhile isspace) = rcParams s := by
  induction s with
  | nil => rfl
  | cons c s ih =>
    by_cases hc : isspace c = true
    · rw [List.dropWhile_cons_of_pos hc, ih (h.suffix (List.suffix_cons c s)),
        rcParams_cons_of_isspace h hc]
    · rw [List.dropWhile_cons_of_neg hc]

theorem dropCarriageReturn_takeWhile (h : ReturnsEndLines s) :
    dropCarriageReturn (s.takeWhile (· ≠ newline)) = s.takeWhile isParamByte := by
  induction s with
  | nil => rfl
  | cons c s ih =>
    by_cases hreturn : c = carriageReturn
    · subst hreturn
      rw [List.takeWhile_cons_of_pos (by decide), h.takeWhile_eq_nil,
        List.takeWhile_cons_of_neg (by decide)]
      rfl
    · by_cases hnewline : c = newline
      · subst hnewline
        rfl
      · rw [List.takeWhile_cons_of_pos (by simpa using hnewline), dropCarriageReturn_cons hreturn,
          ih (h.suffix (List.suffix_cons c s)),
          List.takeWhile_cons_of_pos (by simp [isParamByte, hreturn, hnewline])]

theorem rcParams_dropWhile_isParamByte (h : ReturnsEndLines s) :
    rcParams (s.dropWhile isParamByte) = rcParams (s.dropWhile (· ≠ newline)) := by
  induction s with
  | nil => rfl
  | cons c s ih =>
    have hrest := h.suffix (List.suffix_cons c s)
    by_cases hreturn : c = carriageReturn
    · subst hreturn
      have hline := rcParams_eq s
      rw [h.takeWhile_eq_nil] at hline
      rw [List.dropWhile_cons_of_neg (by decide), List.dropWhile_cons_of_pos (by decide),
        rcParams_cons_of_isspace h (by decide), hline]
      rfl
    · by_cases hnewline : c = newline
      · subst hnewline
        rfl
      · rw [List.dropWhile_cons_of_pos (by simp [isParamByte, hreturn, hnewline]), ih hrest,
          List.dropWhile_cons_of_pos (by simpa using hnewline)]

/-- A line that begins with something else than white space is a comment or a parameter. -/
theorem rcParams_cons_of_not_isspace (h : ReturnsEndLines (c :: s)) (hc : isspace c = false) :
    rcParams (c :: s) = (if c = numberSign then [] else [(c :: s).takeWhile isParamByte]) ++
      rcParams ((c :: s).dropWhile (· ≠ newline)) := by
  have hbyte := isParamByte_of_not_isspace hc
  have hnewline := (of_decide_eq_true hbyte).2
  rw [rcParams_eq, List.takeWhile_cons_of_pos (by simpa using hnewline),
    lineParam_cons_of_not_isspace hc, dropCarriageReturn_takeWhile (h.suffix (List.suffix_cons c s)),
    List.takeWhile_cons_of_pos hbyte]
  split_ifs <;> rfl

/-- The result is the parameters if all of them are options, and an exception otherwise. -/
def ReadsAs (params : List Bytes) (r : Except ArgParseException (List Bytes)) : Prop :=
  ((∀ p ∈ params, IsRCOption p) → r = .ok params) ∧
    ((∃ p ∈ params, ¬ IsRCOption p) → ∃ e, r = .error e)

/-- What has been read and what the rest of the text says are the parameters of the whole. -/
structure ReadsOn (params : List Bytes) (s : RCState) : Prop where
  nulFree : nul ∉ s.pos
  returnsEndLines : ReturnsEndLines s.pos
  options : ∀ p ∈ s.retval, IsRCOption p
  params : s.retval ++ rcParams s.pos = params

theorem cString_of_nulFree (h : nul ∉ s) : cString s = s :=
  List.takeWhile_eq_self_iff.mpr fun c hc => decide_eq_true fun hzero : c = nul => h (hzero ▸ hc)

theorem ReadsOn.next {params retval : List Bytes} {pos : Bytes} (h : ReadsOn params ⟨s, retval⟩)
    (hpos : pos <:+ s) {retval' : List Bytes} (hoptions : ∀ p ∈ retval', IsRCOption p)
    (hparams : retval' ++ rcParams pos = retval ++ rcParams s) : ReadsOn params ⟨pos, retval'⟩ :=
  ⟨fun hnul => h.nulFree (hpos.subset hnul), h.returnsEndLines.suffix hpos, hoptions,
    hparams.trans h.params⟩

theorem ReadsOn.readsAs_of_not_isRCOption {params retval : List Bytes} {p : Bytes}
    (h : ReadsOn params ⟨s, retval⟩) (hp : p ∈ rcParams s) (hoption : ¬ IsRCOption p)
    (e : ArgParseException) : ReadsAs params (.error e) := by
  have hmem : p ∈ params := h.params ▸ List.mem_append_right _ hp
  exact ⟨fun hall => absurd (hall p hmem) hoption, fun _ => ⟨e, rfl⟩⟩

theorem length_dropWhile_lt (q : UInt8 → Bool) (hq : q c = true) :
    ((c :: s).dropWhile q).length < (c :: s).length := by
  rw [List.dropWhile_cons_of_pos hq, List.length_cons]
  exact Nat.lt_succ_of_le (List.dropWhile_suffix q).length_le

theorem convertRCLine_holds (name : Bytes) {params retval : List Bytes}
    (h : ReadsOn params ⟨c :: s, retval⟩) (hc : isspace c = false) :
    (convertRCLine name (c :: s) retval).Holds
      (fun s' => ReadsOn params s' ∧ s'.pos.length < (c :: s).length) (ReadsAs params) := by
  have hbyte := isParamByte_of_not_isspace hc
  have hline := rcParams_cons_of_not_isspace h.returnsEndLines hc
  rw [convertRCLine, List.head?_cons]
  by_cases hcomment : c = numberSign
  · rw [if_pos hcomment, List.nil_append] at hline
    rw [if_pos (congrArg some hcomment)]
    refine ⟨h.next (List.dropWhile_suffix _) h.options (by rw [hline]), ?_⟩
    have hnewline := (of_decide_eq_true hbyte).2
    exact length_dropWhile_lt (fun d => decide (d ≠ newline)) (decide_eq_true hnewline)
  rw [if_neg hcomment, ← rcParams_dropWhile_isParamByte h.returnsEndLines] at hline
  have hparam : cString ((c :: s).takeWhile isParamByte) = (c :: s).takeWhile isParamByte :=
    cString_of_nulFree fun hmem => h.nulFree ((List.takeWhile_prefix _).subset hmem)
  have hmem : (c :: s).takeWhile isParamByte ∈ rcParams (c :: s) := by
    rw [hline]
    exact List.mem_append_left _ List.mem_cons_self
  rw [if_neg (fun heq => hcomment (Option.some.inj heq)), hparam]
  by_cases hdash : (c :: s).takeWhile isParamByte = dashDash
  · rw [if_pos hdash]
    exact h.readsAs_of_not_isRCOption hmem (fun hoption => hoption.2 hdash) _
  rw [if_neg hdash]
  by_cases hhead : ((c :: s).takeWhile isParamByte).head? = some dash
  · rw [if_neg (not_not_intro hhead)]
    refine ⟨h.next (List.dropWhile_suffix _) (fun p hp => ?_) ?_, length_dropWhile_lt _ hbyte⟩
    · rcases List.mem_append.mp hp with hp | hp
      · exact h.options p hp
      · obtain rfl := List.mem_singleton.mp hp
        exact ⟨hhead, hdash⟩
    · rw [List.append_assoc, ← hline]
  · rw [if_pos hhead]
    exact h.readsAs_of_not_isRCOption hmem (fun hoption => hhead hoption.1) _

theorem convertRCStep_holds (name : Bytes) {params : List Bytes} {s : RCState}
    (h : ReadsOn params s) : (convertRCStep name s).Holds
      (fun s' => ReadsOn params s' ∧ s'.pos.length < s.pos.length) (ReadsAs params) := by
  obtain ⟨pos, retval⟩ := s
  rw [convertRCStep]
  by_cases hend : pos = []
  · have hread : retval = params := by
      rw [← h.params, hend, rcParams_nil, List.append_nil]
    rw [if_pos hend, hread]
    refine ⟨fun _ => rfl, ?_⟩
    rintro ⟨p, hp, hoption⟩
    exact absurd (h.options p (hread ▸ hp)) hoption
  have hsuffix : pos.dropWhile isspace <:+ pos := List.dropWhile_suffix isspace
  have hskipped := h.next hsuffix h.options (by rw [rcParams_dropWhile_isspace h.returnsEndLines])
  have hlength := hsuffix.length_le
  rw [if_neg hend]
  cases hpos : pos.dropWhile isspace with
  | nil =>
    rw [hpos] at hskipped
    exact ⟨hskipped, List.length_pos_iff.mpr hend⟩
  | cons c rest =>
    have hc : isspace c = false := by
      have hhead := List.head?_dropWhile_not isspace pos
      rw [hpos] at hhead
      simpa using hhead
    rw [hpos] at hskipped hlength
    exact (convertRCLine_holds name hskipped hc).mono
      (fun s' hs' => ⟨hs'.1, Nat.lt_of_lt_of_le hs'.2 hlength⟩) fun _ hr => hr

theorem convertRCStep_readsAs (name : Bytes) {content : Bytes} (hnul : nul ∉ content)
    (hreturns : ReturnsEndLines content) :
    ∃ n r, run (convertRCStep name) n ⟨content, []⟩ = .done r ∧ ReadsAs (rcParams content) r := by
  have hstart : ReadsOn (rcParams content) ⟨content, []⟩ := ⟨hnul, hreturns, by simp, rfl⟩
  obtain ⟨r, hrun, hr⟩ := terminates_of_measure (fun s : RCState => s.pos.length)
    (fun s (h : ReadsOn (rcParams content) s) => convertRCStep_holds name h) hstart
  exact ⟨_, r, hrun, hr⟩

/-- The text of a line, without the line end and white space in front. -/
structure LineText where
  bytes : Bytes
  paramBytes : ∀ c ∈ bytes, isParamByte c = true
  nulFree : nul ∉ bytes

structure RCParam extends LineText where
  isRCOption : IsRCOption bytes

structure Indentation where
  bytes : Bytes
  spaces : ∀ c ∈ bytes, isspace c = true ∧ isParamByte c = true

inductive RCLine
  | blank (indentation : Indentation)
  | comment (indentation : Indentation) (text : LineText)
  | param (indentation : Indentation) (param : RCParam)

namespace RCLine

def text : RCLine → Bytes
  | blank _ => []
  | comment _ t => numberSign :: t.bytes
  | param _ p => p.bytes

def indentation : RCLine → Indentation
  | blank i => i
  | comment i _ => i
  | param i _ => i

def bytes (line : RCLine) : Bytes := line.indentation.bytes ++ line.text

def params : RCLine → List Bytes
  | blank _ => []
  | comment _ _ => []
  | param _ p => [p.bytes]

end RCLine

/-- The lines, each with a line end of two bytes or of one, and a last line without a line end. -/
def writeRC : List (RCLine × Bool) → RCLine → Bytes
  | [], last => last.bytes
  | (line, crlf) :: lines, last =>
    line.bytes ++ ((if crlf then [carriageReturn, newline] else [newline]) ++ writeRC lines last)

namespace RCLine

variable (l : RCLine)

theorem isParamByte_of_mem (hc : c ∈ l.bytes) : isParamByte c = true := by
  rcases List.mem_append.mp hc with hc | hc
  · exact (l.indentation.spaces c hc).2
  · cases l with
    | blank i => simp [text] at hc
    | comment i t =>
      rcases List.mem_cons.mp hc with rfl | hc
      · rfl
      · exact t.paramBytes c hc
    | param i p => exact p.paramBytes c hc

theorem carriageReturn_not_mem : carriageReturn ∉ l.bytes := fun hc =>
  absurd (l.isParamByte_of_mem hc) (by decide)

theorem newline_not_mem : newline ∉ l.bytes := fun hc =>
  absurd (l.isParamByte_of_mem hc) (by decide)

theorem nulFree : nul ∉ l.bytes := by
  intro hc
  rcases List.mem_append.mp hc with hc | hc
  · exact absurd (l.indentation.spaces nul hc).1 (by decide)
  · cases l with
    | blank i => simp [text] at hc
    | comment i t =>
      rcases List.mem_cons.mp hc with hzero | hc
      · exact absurd hzero (by decide)
      · exact t.nulFree hc
    | param i p => exact p.nulFree hc

theorem dropCarriageReturn_bytes : dropCarriageReturn l.bytes = l.bytes := by
  rw [dropCarriageReturn, if_neg]
  exact fun hlast => l.carriageReturn_not_mem (List.mem_of_getLast? hlast)

theorem dropCarriageReturn_bytes_append : dropCarriageReturn (l.bytes ++ [carriageReturn]) = l.bytes := by
  rw [dropCarriageReturn, if_pos (by simp), List.dropLast_concat]

theorem dropWhile_isspace_bytes : l.bytes.dropWhile isspace = l.text := by
  rw [bytes, List.dropWhile_append_of_pos fun c hc => (l.indentation.spaces c hc).1]
  cases l with
  | blank i => rfl
  | comment i t => rfl
  | param i p =>
    obtain ⟨rest, hrest⟩ := List.head?_eq_some_iff.mp p.isRCOption.1
    change p.bytes.dropWhile isspace = p.bytes
    rw [hrest]
    rfl

theorem lineParam_of_dropCarriageReturn (h : dropCarriageReturn line = l.bytes) :
    (lineParam line).toList = l.params := by
  rw [lineParam, h, dropWhile_isspace_bytes]
  cases l with
  | blank i => rfl
  | comment i t => rfl
  | param i p =>
    obtain ⟨rest, hrest⟩ := List.head?_eq_some_iff.mp p.isRCOption.1
    change (if p.bytes = [] ∨ p.bytes.head? = some numberSign then none else some p.bytes).toList =
      [p.bytes]
    rw [if_neg]
    · rfl
    · rw [hrest]
      simp [dash, numberSign]

end RCLine

theorem rcParams_writeRC (lines : List (RCLine × Bool)) (last : RCLine) :
    rcParams (writeRC lines last) = lines.flatMap (·.1.params) ++ last.params := by
  induction lines with
  | nil =>
    rw [writeRC, rcParams_of_not_mem last.newline_not_mem,
      last.lineParam_of_dropCarriageReturn last.dropCarriageReturn_bytes]
    rfl
  | cons head lines ih =>
    obtain ⟨l, crlf⟩ := head
    rw [writeRC, List.flatMap_cons, List.append_assoc, ← ih]
    cases crlf with
    | true =>
      have hline : newline ∉ l.bytes ++ [carriageReturn] := by
        simpa [newline, carriageReturn] using l.newline_not_mem
      have hwritten := rcParams_line hline (writeRC lines last)
      rw [l.lineParam_of_dropCarriageReturn l.dropCarriageReturn_bytes_append,
        List.append_assoc] at hwritten
      exact hwritten
    | false =>
      have hwritten := rcParams_line l.newline_not_mem (writeRC lines last)
      rw [l.lineParam_of_dropCarriageReturn l.dropCarriageReturn_bytes] at hwritten
      exact hwritten

theorem ReturnsEndLines.append (ht : ReturnsEndLines t) (hs : carriageReturn ∉ s) :
    ReturnsEndLines (s ++ t) := by
  induction s with
  | nil => exact ht
  | cons c s ih =>
    intro rest hrest
    rcases List.suffix_cons_iff.mp hrest with heq | hsuffix
    · exact absurd (List.cons.inj heq).1 (fun hc => hs (hc ▸ List.mem_cons_self))
    · exact ih (fun hmem => hs (List.mem_cons_of_mem _ hmem)) rest hsuffix

theorem returnsEndLines_writeRC (lines : List (RCLine × Bool)) (last : RCLine) :
    ReturnsEndLines (writeRC lines last) := by
  induction lines with
  | nil => exact returnsEndLines_of_not_mem last.carriageReturn_not_mem
  | cons head lines ih =>
    obtain ⟨l, crlf⟩ := head
    have hnewline : ReturnsEndLines (newline :: writeRC lines last) :=
      ih.append (s := [newline]) (by decide)
    rw [writeRC]
    refine ReturnsEndLines.append ?_ l.carriageReturn_not_mem
    cases crlf with
    | true =>
      intro rest hrest
      rcases List.suffix_cons_iff.mp hrest with heq | hsuffix
      · rw [(List.cons.inj heq).2]
        rfl
      · exact hnewline rest hsuffix
    | false => exact hnewline

theorem nulFree_writeRC (lines : List (RCLine × Bool)) (last : RCLine) :
    nul ∉ writeRC lines last := by
  induction lines with
  | nil => exact last.nulFree
  | cons head lines ih =>
    obtain ⟨l, crlf⟩ := head
    intro hmem
    rcases List.mem_append.mp hmem with hmem | hmem
    · exact l.nulFree hmem
    rcases List.mem_append.mp hmem with hmem | hmem
    · cases crlf <;> exact absurd hmem (by decide)
    · exact ih hmem

/-- Every text without zeroes and lone carriage returns is read, and as its lines say; and what is
written one parameter a line, among blank lines and comments, is read back. -/
theorem convertRCStep_reads (name : Bytes) :
    (∀ content, nul ∉ content → ReturnsEndLines content →
      ∃ n r, run (convertRCStep name) n ⟨content, []⟩ = .done r ∧ ReadsAs (rcParams content) r) ∧
    ∀ lines last, ∃ n, run (convertRCStep name) n ⟨writeRC lines last, []⟩ =
      .done (.ok (lines.flatMap (·.1.params) ++ last.params)) := by
  refine ⟨fun content hnul hreturns => convertRCStep_readsAs name hnul hreturns,
    fun lines last => ?_⟩
  obtain ⟨n, r, hrun, hreads⟩ := convertRCStep_readsAs name (nulFree_writeRC lines last)
    (returnsEndLines_writeRC lines last)
  have hoption (l : RCLine) : ∀ p ∈ l.params, IsRCOption p := by
    cases l with
    | blank i => simp [RCLine.params]
    | comment i t => simp [RCLine.params]
    | param i p => simpa [RCLine.params] using p.isRCOption
  rw [rcParams_writeRC] at hreads
  refine ⟨n, hrun.trans (congrArg _ (hreads.1 fun p hp => ?_))⟩
  rcases List.mem_append.mp hp with hp | hp
  · obtain ⟨l, -, hl⟩ := List.mem_flatMap.mp hp
    exact hoption l.1 p hl
  · exact hoption last p hp

theorem convertRCStep_reads_ignoreCase : ∃ n r,
    run (convertRCStep (str ".ucgrc")) n ⟨str "  -i\n# end", []⟩ = .done r ∧
      ReadsAs (rcParams (str "  -i\n# end")) r :=
  (convertRCStep_reads (str ".ucgrc")).1 (str "  -i\n# end") (by decide)
    (returnsEndLines_of_not_mem (by decide))

end Ucg
