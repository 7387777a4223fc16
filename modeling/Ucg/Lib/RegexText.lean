import Mathlib.Data.List.Basic
import Mathlib.Data.UInt

/-! Perl-compatible patterns over bytes, in multiline mode: their syntax, the text that they are
written as, and what they match. -/

namespace RegexText

abbrev Text := List UInt8

/-- The bytes `\^$.[]()?*+{}`, which are not plain text. -/
def metaBytes : Text := [92, 94, 36, 46, 91, 93, 40, 41, 63, 42, 43, 123, 125]

def bar : UInt8 := 124

def lineFeed : UInt8 := 10

/-- Where a quantifier that begins so allows no repetition at all: `?*{`. -/
def optionalMarks : Text := [63, 42, 123]

def isWordByte (b : UInt8) : Bool :=
  (48 ≤ b && b ≤ 57) || (65 ≤ b && b ≤ 90) || (97 ≤ b && b ≤ 122) || b == 95

def isHorizontalSpace (b : UInt8) : Bool := b == 9 || b == 32 || b == 160

def isVerticalSpace (b : UInt8) : Bool := (10 ≤ b && b ≤ 13) || b == 133

def isSpace (b : UInt8) : Bool := (9 ≤ b && b ≤ 13) || b == 32

/-- The bytes that an escape of one byte stands for: a byte that is neither a letter nor a digit
stands for itself. -/
def escapeSet (c : UInt8) : Option (UInt8 → Bool) :=
  match c with
  | 97 => some (· == 7)
  | 100 => some fun b => 48 ≤ b && b ≤ 57
  | 68 => some fun b => !(48 ≤ b && b ≤ 57)
  | 101 => some (· == 27)
  | 102 => some (· == 12)
  | 104 => some isHorizontalSpace
  | 72 => some fun b => !isHorizontalSpace b
  | 110 => some (· == 10)
  | 78 => some (· != 10)
  | 114 => some (· == 13)
  | 115 => some isSpace
  | 83 => some fun b => !isSpace b
  | 116 => some (· == 9)
  | 118 => some isVerticalSpace
  | 86 => some fun b => !isVerticalSpace b
  | 119 => some isWordByte
  | 87 => some fun b => !isWordByte b
  | c => if isWordByte c && c != 95 then none else some (· == c)

inductive Anchor
  | caret
  | dollar
  | subjectStart
  | subjectEnd
  | subjectEndOrLineFeed
  | wordBoundary
  | notWordBoundary
  deriving DecidableEq, Repr

def Anchor.text : Anchor → Text
  | .caret => [94]
  | .dollar => [36]
  | .subjectStart => [92, 65]
  | .subjectEnd => [92, 122]
  | .subjectEndOrLineFeed => [92, 90]
  | .wordBoundary => [92, 98]
  | .notWordBoundary => [92, 66]

def wordAt (subject : Text) (p : Nat) : Bool := (subject[p]?).any isWordByte

/-- Whether a word begins or ends at a position. -/
def boundaryAt (subject : Text) (p : Nat) : Bool :=
  (decide (0 < p) && wordAt subject (p - 1)) != wordAt subject p

def Anchor.Holds (subject : Text) (p : Nat) : Anchor → Prop
  | .caret => p = 0 ∨ (p < subject.length ∧ subject[p - 1]? = some lineFeed)
  | .dollar => p = subject.length ∨ subject[p]? = some lineFeed
  | .subjectStart => p = 0
  | .subjectEnd => p = subject.length
  | .subjectEndOrLineFeed => p = subject.length ∨ (p + 1 = subject.length ∧ subject[p]? = some lineFeed)
  | .wordBoundary => boundaryAt subject p = true
  | .notWordBoundary => boundaryAt subject p = false

inductive GroupKind
  | capturing
  | nonCapturing
  | atomic
  deriving DecidableEq, Repr

def GroupKind.text : GroupKind → Text
  | .capturing => []
  | .nonCapturing => [63, 58]
  | .atomic => [63, 62]

inductive Quantifier
  | optional
  | star
  | plus
  | exactly (n : Nat)
  | atLeast (n : Nat)
  | between (m n : Nat)
  deriving DecidableEq, Repr

def decimal (n : Nat) : Text := (Nat.toDigits 10 n).map fun c => c.toNat.toUInt8

def Quantifier.text : Quantifier → Text
  | .optional => [63]
  | .star => [42]
  | .plus => [43]
  | .exactly n => 123 :: decimal n ++ [125]
  | .atLeast n => 123 :: decimal n ++ [44, 125]
  | .between m n => 123 :: decimal m ++ 44 :: decimal n ++ [125]

def Quantifier.Allows (k : Nat) : Quantifier → Prop
  | .optional => k ≤ 1
  | .star => True
  | .plus => 1 ≤ k
  | .exactly n => k = n
  | .atLeast n => n ≤ k
  | .between m n => m ≤ k ∧ k ≤ n

inductive Suffix
  | greedy
  | lazy
  | possessive
  deriving DecidableEq, Repr

def Suffix.text : Suffix → Text
  | .greedy => []
  | .lazy => [63]
  | .possessive => [43]

/-- A pattern. A class is its text between the brackets and the bytes that this stands for. -/
inductive Re
  | empty
  | literal (c : UInt8)
  | escape (c : UInt8)
  | any
  | charClass (text : Text) (set : UInt8 → Bool)
  | anchor (a : Anchor)
  | group (kind : GroupKind) (r : Re)
  | seq (r₁ r₂ : Re)
  | alt (r₁ r₂ : Re)
  | quantified (r : Re) (q : Quantifier) (suffix : Suffix)

namespace Re

def text : Re → Text
  | empty => []
  | literal c => [c]
  | escape c => [92, c]
  | any => [46]
  | charClass text _ => 91 :: text ++ [93]
  | anchor a => a.text
  | group kind r => 40 :: kind.text ++ r.text ++ [41]
  | seq r₁ r₂ => r₁.text ++ r₂.text
  | alt r₁ r₂ => r₁.text ++ bar :: r₂.text
  | quantified r q suffix => r.text ++ q.text ++ suffix.text

def IsAtom : Re → Prop
  | empty => False
  | seq _ _ => False
  | alt _ _ => False
  | quantified _ _ _ => False
  | _ => True

def IsAlt : Re → Prop
  | alt _ _ => True
  | _ => False

/-- The text reads as the pattern: a literal byte is not a syntax byte (but for `]`, `{` and `}`,
which may stand for themselves), an alternation is not part of a sequence, and a quantifier stands
behind one item. -/
def WellFormed : Re → Prop
  | literal c => c ∉ [92, 94, 36, 46, 91, 40, 41, 63, 42, 43, bar]
  | escape c => (escapeSet c).isSome = true
  | group _ r => r.WellFormed
  | seq r₁ r₂ => r₁.WellFormed ∧ r₂.WellFormed ∧ ¬ r₁.IsAlt ∧ ¬ r₂.IsAlt
  | alt r₁ r₂ => r₁.WellFormed ∧ r₂.WellFormed
  | quantified r _ _ => r.WellFormed ∧ r.IsAtom
  | _ => True

def Times (R : Nat → Nat → Prop) : Nat → Nat → Nat → Prop
  | 0, p, e => e = p
  | k + 1, p, e => ∃ q, R p q ∧ Times R k q e

/-- The pattern can match from `p` to `e`. Which of its matches a search prefers, and which of
them lazy and possessive quantifiers and atomic groups give up, is left open. -/
def Matches (subject : Text) : Re → Nat → Nat → Prop
  | empty, p, e => e = p
  | literal c, p, e => subject[p]? = some c ∧ e = p + 1
  | escape c, p, e => (∃ set b, escapeSet c = some set ∧ subject[p]? = some b ∧ set b = true) ∧ e = p + 1
  | any, p, e => (∃ b, subject[p]? = some b ∧ b ≠ lineFeed) ∧ e = p + 1
  | charClass _ set, p, e => (∃ b, subject[p]? = some b ∧ set b = true) ∧ e = p + 1
  | anchor a, p, e => a.Holds subject p ∧ e = p
  | group _ r, p, e => Matches subject r p e
  | seq r₁ r₂, p, e => ∃ q, Matches subject r₁ p q ∧ Matches subject r₂ q e
  | alt r₁ r₂, p, e => Matches subject r₁ p e ∨ Matches subject r₂ p e
  | quantified r q _, p, e => ∃ k, q.Allows k ∧ Times (Matches subject r) k p e

theorem text_head_of_isAtom {r : Re} (h : r.IsAtom) :
    (∃ c, r = .literal c) ∨ ∃ c rest, r.text = c :: rest ∧ c ∈ metaBytes := by
  cases r with
  | empty => exact h.elim
  | literal c => exact Or.inl ⟨c, rfl⟩
  | escape c => exact Or.inr ⟨92, [c], rfl, by decide⟩
  | any => exact Or.inr ⟨46, [], rfl, by decide⟩
  | charClass text set => exact Or.inr ⟨91, text ++ [93], rfl, by decide⟩
  | anchor a => cases a <;> exact Or.inr ⟨_, _, rfl, by decide⟩
  | group kind r => exact Or.inr ⟨40, kind.text ++ r.text ++ [41], by simp [text], by decide⟩
  | seq r₁ r₂ => exact h.elim
  | alt r₁ r₂ => exact h.elim
  | quantified r q suffix => exact h.elim

theorem quantifier_text_head (q : Quantifier) : ∃ c rest, q.text = c :: rest ∧ c ∈ metaBytes ∧
    (c ∉ optionalMarks → ∀ k, q.Allows k → 1 ≤ k) := by
  cases q with
  | plus => exact ⟨43, [], rfl, by decide, fun _ k hk => hk⟩
  | _ => exact ⟨_, _, rfl, by decide, fun h => absurd (by decide) h⟩

/-- What every match says about plain bytes that the text begins with: they begin the match, the
last of them unless a mark follows that makes it optional. -/
structure BeginsWith (subject : Text) (p e : Nat) (run rest : Text) : Prop where
  stop : rest = [] → e = p + run.length
  dropLast : run.dropLast <+: subject.drop p
  all : (∀ c ∈ optionalMarks, rest.head? ≠ some c) → run <+: subject.drop p

variable {subject : Text} {p q e : Nat}

theorem BeginsWith.nil {rest : Text} (h : rest = [] → e = p) : BeginsWith subject p e [] rest :=
  ⟨h, List.nil_prefix, fun _ => List.nil_prefix⟩

theorem BeginsWith.of_head {c : UInt8} {text run rest : Text} (hc : c ∈ metaBytes)
    (htext : c :: text = run ++ rest) (hplain : ∀ b ∈ run, b ∉ metaBytes) :
    BeginsWith subject p e run rest := by
  cases run with
  | nil => exact .nil fun hrest => by simp [hrest] at htext
  | cons b run =>
    rw [List.cons_append, List.cons.injEq] at htext
    exact absurd hc (htext.1 ▸ hplain b List.mem_cons_self)

theorem singleton_prefix_drop {c : UInt8} (h : subject[p]? = some c) : [c] <+: subject.drop p := by
  obtain ⟨hlt, rfl⟩ := List.getElem?_eq_some_iff.mp h
  rw [List.drop_eq_getElem_cons hlt]
  exact ⟨_, rfl⟩

theorem append_prefix_drop {a b : Text} (ha : a <+: subject.drop p) (hb : b <+: subject.drop (p + a.length)) :
    a ++ b <+: subject.drop p := by
  obtain ⟨tail, hsubject⟩ := ha
  rw [← hsubject, List.prefix_append_right_inj]
  rwa [← List.drop_drop, ← hsubject, List.drop_left] at hb

theorem BeginsWith.append {run run' rest : Text} (h : BeginsWith subject p q run [])
    (h' : BeginsWith subject q e run' rest) : BeginsWith subject p e (run ++ run') rest := by
  obtain rfl := h.stop rfl
  have hrun := h.all (by simp)
  refine ⟨fun hrest => ?_, ?_, fun hmarks => append_prefix_drop hrun (h'.all hmarks)⟩
  · rw [h'.stop hrest, List.length_append, Nat.add_assoc]
  · by_cases hnil : run' = []
    · rw [hnil, List.append_nil]
      exact h.dropLast
    · rw [List.dropLast_append_of_ne_nil hnil]
      exact append_prefix_drop hrun h'.dropLast

/-- The plain bytes that the text of a pattern without alternation begins with begin every match. -/
theorem Matches.beginsWith {r : Re} (hr : r.WellFormed) (hbar : bar ∉ r.text)
    (h : Matches subject r p e) {run rest : Text} (htext : r.text = run ++ rest)
    (hplain : ∀ c ∈ run, c ∉ metaBytes) : BeginsWith subject p e run rest := by
  induction r generalizing p e run rest with
  | empty =>
    obtain ⟨rfl, rfl⟩ := List.append_eq_nil_iff.mp htext.symm
    exact .nil fun _ => h
  | literal c =>
    cases run with
    | nil => exact .nil fun hrest => by simp [text, hrest] at htext
    | cons b run =>
      obtain ⟨rfl, hnil⟩ := List.cons.inj htext
      obtain ⟨rfl, rfl⟩ := List.append_eq_nil_iff.mp hnil.symm
      exact ⟨fun _ => h.2, List.nil_prefix, fun _ => singleton_prefix_drop h.1⟩
  | escape c => exact .of_head (by decide) htext hplain
  | any => exact .of_head (by decide) htext hplain
  | charClass text set => exact .of_head (by decide) htext hplain
  | anchor a => cases a <;> exact .of_head (by decide) htext hplain
  | group kind r =>
    have hopen : (40 : UInt8) ∈ metaBytes := by decide
    exact .of_head hopen (by simpa [text] using htext) hplain
  | seq r₁ r₂ ih₁ ih₂ =>
    obtain ⟨q, h₁, h₂⟩ := h
    rw [text, List.mem_append, not_or] at hbar
    rcases List.append_eq_append_iff.mp htext with ⟨run', rfl, htext₂⟩ | ⟨rest', htext₁, rfl⟩
    · have hplain₁ : ∀ c ∈ r₁.text, c ∉ metaBytes := fun c hc => hplain c (List.mem_append_left _ hc)
      have hplain₂ : ∀ c ∈ run', c ∉ metaBytes := fun c hc => hplain c (List.mem_append_right _ hc)
      have hfirst := ih₁ hr.1 hbar.1 h₁ (List.append_nil _).symm hplain₁
      exact hfirst.append (ih₂ hr.2.1 hbar.2 h₂ htext₂ hplain₂)
    · have hfirst := ih₁ hr.1 hbar.1 h₁ htext₁ hplain
      refine ⟨fun hrest => ?_, hfirst.dropLast, fun hmarks => ?_⟩
      · obtain ⟨rfl, hnil⟩ := List.append_eq_nil_iff.mp hrest
        have hsecond := ih₂ hr.2.1 hbar.2 h₂ (show r₂.text = [] ++ [] from hnil) (by simp)
        rw [hsecond.stop rfl, hfirst.stop rfl]
        rfl
      · cases rest' with
        | nil => exact hfirst.all (by simp)
        | cons c rest' => exact hfirst.all hmarks
  | alt r₁ r₂ => exact absurd (by simp [text]) hbar
  | quantified r q suffix =>
    obtain ⟨d, qrest, hq, hd, hmin⟩ := quantifier_text_head q
    rcases text_head_of_isAtom hr.2 with ⟨c, rfl⟩ | ⟨c, atom, hatom, hc⟩
    · cases run with
      | nil => exact .nil fun hrest => by simp [text, hrest] at htext
      | cons b run =>
        have hcons : c :: (d :: (qrest ++ suffix.text)) = b :: (run ++ rest) := by
          simpa [text, hq] using htext
        obtain ⟨rfl, hmark⟩ := List.cons.inj hcons
        cases run with
        | cons b' run => exact absurd hd ((List.cons.inj hmark).1 ▸ hplain b' (by simp))
        | nil =>
          refine ⟨fun hrest => by simp [hrest] at hmark, List.nil_prefix, fun hmarks => ?_⟩
          obtain ⟨k, hk, htimes⟩ := h
          have hpos : 1 ≤ k := by
            refine hmin (fun hoptional => hmarks d hoptional ?_) k hk
            rw [← List.nil_append rest, ← hmark]
            rfl
          obtain ⟨k, rfl⟩ := Nat.exists_eq_succ_of_ne_zero (Nat.one_le_iff_ne_zero.mp hpos)
          obtain ⟨_, ⟨hat, -⟩, -⟩ := htimes
          exact singleton_prefix_drop hat
    · have htext' : c :: (atom ++ q.text ++ suffix.text) = run ++ rest := by
        simpa [text, hatom] using htext
      exact .of_head hc htext' hplain

end Re

end RegexText
