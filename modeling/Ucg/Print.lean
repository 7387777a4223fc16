import Ucg.ArgParse
import Ucg.Pipeline

/-! `MatchList::Print`, and the text that the output task writes list by list. -/

namespace Ucg

structure OutputContext where
  enableColor : Bool
  prefixFile : Bool
  printLineNumber : Bool
  printColumn : Bool
  nullsep : Bool
  deriving DecidableEq, Repr

/-- The members that `main` hands to the output task. `Parse` leaves `m_nullsep` as it is. -/
def ArgParse.outputContext (ap : ArgParse) : OutputContext where
  enableColor := ap.color
  prefixFile := ap.prefixFile
  printLineNumber := ap.lineNumber
  printColumn := ap.column
  nullsep := false

def defaultColorFilename : Bytes := str "\x1B[32;1m\x1B[K"

def defaultColorMatch : Bytes := str "\x1B[30;43;1m\x1B[K"

def defaultColorLineno : Bytes := str "\x1B[33;1m\x1B[K"

def defaultColorDefault : Bytes := str "\x1B[0m\x1B[K"

/-- `std::to_string` of a `size_t`. -/
def toDecimal (n : Nat) : Bytes := (Nat.toDigits 10 n).map fun c => UInt8.ofNat c.toNat

/-- The filename without a leading `./`. -/
def noDotslash (filename : Bytes) : Bytes :=
  if str "./" <+: filename then filename.drop 2 else filename

namespace OutputContext

variable (ctx : OutputContext)

/-- An active color, which stays empty without color. -/
def active (color : Bytes) : Bytes := if ctx.enableColor then color else []

def fileSeparator : UInt8 := if ctx.nullsep then nul else if ctx.prefixFile then colon else newline

def printFilename (filename : Bytes) : Bytes :=
  ctx.active defaultColorFilename ++ noDotslash filename ++ ctx.active defaultColorDefault ++
    [ctx.fileSeparator]

/-- The line number, and the column where the line number is printed. -/
def printNumbers (m : Match) : Bytes :=
  if ctx.printLineNumber then
    ctx.active defaultColorLineno ++ toDecimal m.mLineNumber ++ ctx.active defaultColorDefault ++
      [colon] ++
      if ctx.printColumn then toDecimal (m.mPreMatch.length + 1) ++ [colon] else []
  else []

def printText (m : Match) : Bytes :=
  m.mPreMatch ++ ctx.active defaultColorMatch ++ m.mMatch ++ ctx.active defaultColorDefault ++
    m.mPostMatch ++ [newline]

def printMatch (filename : Bytes) (m : Match) : Bytes :=
  (if ctx.prefixFile then ctx.printFilename filename else []) ++ ctx.printNumbers m ++
    ctx.printText m

end OutputContext

def MatchList.print (ml : MatchList) (ctx : OutputContext) : Bytes :=
  (if ctx.prefixFile then [] else ctx.printFilename ml.filename) ++
    ml.matchList.flatMap (ctx.printMatch ml.filename)

/-- What the body of the loop in `OutputTask::Run` writes to `cout`. -/
def MatchList.write (ml : MatchList) (ctx : OutputContext) (firstMatchlistPrinted : Bool) : Bytes :=
  (if firstMatchlistPrinted && !ctx.prefixFile then [newline] else []) ++ ml.print ctx

/-- What the loop writes for the lists that it pulls. -/
def writeAll (ctx : OutputContext) : Bool → List MatchList → Bytes
  | _, [] => []
  | firstMatchlistPrinted, ml :: lists =>
    ml.write ctx firstMatchlistPrinted ++ writeAll ctx true lists

/-- The text of the line with the match. -/
def Match.line (m : Match) : Bytes := m.mPreMatch ++ m.mMatch ++ m.mPostMatch

section Decimal

variable {n : Nat}

theorem toDecimal_ne_nil : toDecimal n ≠ [] := by
  simp [toDecimal, Nat.toDigits_ne_nil]

theorem digit_bounds {d : Char} (h : d ∈ Nat.toDigits 10 n) : 48 ≤ d.toNat ∧ d.toNat ≤ 57 := by
  have hdigit := Nat.isDigit_of_mem_toDigits (by omega) (by omega) h
  simp only [Char.isDigit, Bool.and_eq_true, decide_eq_true_eq, ge_iff_le,
    UInt32.le_iff_toNat_le] at hdigit
  exact hdigit

theorem isDigit_of_mem_toDecimal {c : UInt8} (h : c ∈ toDecimal n) : isDigit c = true := by
  obtain ⟨d, hd, rfl⟩ := List.mem_map.mp h
  obtain ⟨hlow, hhigh⟩ := digit_bounds hd
  have hsmall : d.toNat < 2 ^ 8 := by omega
  simp only [isDigit, UInt8.le_iff_toNat_le, UInt8.toNat_ofNat', Nat.mod_eq_of_lt hsmall,
    decide_eq_true_eq]
  exact ⟨hlow, hhigh⟩

theorem foldl_digits {l : List Char} (hl : ∀ c ∈ l, c.toNat < 256) (k : Nat) :
    (l.map fun c => UInt8.ofNat c.toNat).foldl (fun n c => n * 10 + (c.toNat - 48)) k =
      Nat.ofDigitChars 10 l k := by
  induction l generalizing k with
  | nil => simp
  | cons c l ih =>
    have hc := hl c List.mem_cons_self
    rw [List.map_cons, List.foldl_cons, Nat.ofDigitChars_cons,
      ih fun d hd => hl d (List.mem_cons_of_mem _ hd)]
    simp [UInt8.toNat_ofNat', Nat.mod_eq_of_lt hc, Nat.mul_comm]

theorem decimalValue_toDecimal : decimalValue (toDecimal n) = n := by
  rw [decimalValue, toDecimal, foldl_digits, Nat.ofDigitChars_toDigits (by omega) (by omega)]
  intro c hc
  have := (digit_bounds hc).2
  omega

end Decimal

end Ucg
