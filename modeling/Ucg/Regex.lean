import Ucg.ScanInvariant

/-! A compiled regex as the matches it offers at every offset, the callout that rejects those
with a newline, and the two kinds of searches that `ScanFile` makes. -/

namespace Ucg

open Segments

/-- The ends of the matches at each offset, in the order in which backtracking reaches the
callout. -/
structure Regex (file : Bytes) where
  solutions : Nat → List Nat
  inSubject : ∀ {p e : Nat}, e ∈ solutions p → p ≤ e ∧ e ≤ file.length

/-- `callout_handler` makes the engine backtrack with a positive result. -/
def calloutHandler (file : Bytes) (startMatch currentPosition : Nat) : Nat :=
  if newline ∈ slice file startMatch currentPosition then 1 else 0

namespace Regex

variable {file : Bytes}

/-- The regex with the given ends, without those outside the subject. -/
def within (solutions : Nat → List Nat) : Regex file where
  solutions p := (solutions p).filter fun e => p ≤ e ∧ e ≤ file.length
  inSubject h := of_decide_eq_true (List.mem_filter.mp h).2

def accepted (r : Regex file) (p : Nat) : List Nat :=
  (r.solutions p).filter fun e => calloutHandler file p e == 0

/-- Whether the regex matches at `p`, and where that match ends. -/
def matchAt (r : Regex file) (p : Nat) : Option Nat := (r.accepted p).head?

def nonEmptyAt (r : Regex file) (p : Nat) : Option Nat := (r.accepted p).find? fun e => p < e

def foundAt (r : Regex file) (p : Nat) : Option MatchRc := (r.matchAt p).map fun e => .found p e

/-- `pcre2_match`: the leftmost match from the start offset on, or a non-empty match at it. -/
def pcre2Match (r : Regex file) : Pcre2Match
  | so, .none => ((List.range' so (file.length + 1 - so)).findSome? r.foundAt).getD .noMatch
  | so, .notEmptyAtStartAnchored => ((r.nonEmptyAt so).map fun e => .found so e).getD .noMatch

variable {r : Regex file} {p e so : Nat}

theorem calloutHandler_eq_zero : calloutHandler file p e = 0 ↔ SepFree newline file p e := by
  rw [sepFree_iff_not_mem, calloutHandler]
  split <;> simp_all

theorem mem_accepted : e ∈ r.accepted p ↔ e ∈ r.solutions p ∧ SepFree newline file p e := by
  rw [accepted, List.mem_filter, beq_iff_eq, calloutHandler_eq_zero]

theorem accepted_bounds (h : e ∈ r.accepted p) :
    p ≤ e ∧ e ≤ file.length ∧ SepFree newline file p e := by
  obtain ⟨hs, hfree⟩ := mem_accepted.mp h
  exact ⟨(r.inSubject hs).1, (r.inSubject hs).2, hfree⟩

theorem matchAt_bounds (h : r.matchAt p = some e) :
    p ≤ e ∧ e ≤ file.length ∧ SepFree newline file p e :=
  accepted_bounds (List.mem_of_head? h)

theorem nonEmptyAt_bounds (h : r.nonEmptyAt p = some e) :
    p < e ∧ e ≤ file.length ∧ SepFree newline file p e := by
  obtain ⟨-, hle, hfree⟩ := accepted_bounds (List.mem_of_find?_eq_some h)
  exact ⟨by simpa using List.find?_some h, hle, hfree⟩

theorem matchAt_of_newline (h : file[p]? = some newline) (he : r.matchAt p = some e) : e = p := by
  obtain ⟨hle, -, hfree⟩ := matchAt_bounds he
  by_contra hne
  exact hfree p (Nat.le_refl p) (by omega) h

theorem matchAt_isSome_of_nonEmptyAt (h : r.nonEmptyAt p = some e) : r.matchAt p ≠ none := by
  have hmem := List.mem_of_find?_eq_some h
  rw [matchAt, Ne, List.head?_eq_none_iff]
  exact List.ne_nil_of_mem hmem

theorem pcre2Match_none (so : Nat) :
    (∃ a e, r.pcre2Match so .none = .found a e ∧ so ≤ a ∧ r.matchAt a = some e ∧
        ∀ q, so ≤ q → q < a → r.matchAt q = none) ∨
      (r.pcre2Match so .none = .noMatch ∧ ∀ q, so ≤ q → q ≤ file.length → r.matchAt q = none) := by
  have hnone : ∀ q, r.foundAt q = none ↔ r.matchAt q = none := by simp [foundAt]
  rw [pcre2Match]
  cases h : (List.range' so (file.length + 1 - so)).findSome? r.foundAt with
  | none =>
    right
    refine ⟨rfl, fun q hq hle => ?_⟩
    exact (hnone q).mp (List.findSome?_eq_none_iff.mp h q (List.mem_range'_1.mpr (by omega)))
  | some rc =>
    left
    obtain ⟨l₁, a, l₂, hl, hrc, hbefore⟩ := List.findSome?_eq_some_iff.mp h
    obtain ⟨e, he, rfl⟩ := Option.map_eq_some_iff.mp hrc
    have hl₁ : l₁ = List.range' so l₁.length ∧ a = so + l₁.length := by
      obtain ⟨k, hk, hl₁, hrest⟩ := List.range'_eq_append_iff.mp hl
      obtain ⟨hhead, -⟩ := List.range'_eq_cons_iff.mp hrest.symm
      rw [hl₁, List.length_range']
      exact ⟨rfl, by simpa using hhead.symm⟩
    refine ⟨a, e, rfl, by omega, he, fun q hq hlt => (hnone q).mp (hbefore q ?_)⟩
    rw [hl₁.1]
    exact List.mem_range'_1.mpr (by omega)

theorem pcre2Match_retry (so : Nat) :
    (∃ e, r.pcre2Match so .notEmptyAtStartAnchored = .found so e ∧ r.nonEmptyAt so = some e) ∨
      (r.pcre2Match so .notEmptyAtStartAnchored = .noMatch ∧ r.nonEmptyAt so = none) := by
  rw [pcre2Match]
  cases h : r.nonEmptyAt so with
  | none => exact Or.inr ⟨rfl, rfl⟩
  | some e => exact Or.inl ⟨e, rfl, rfl⟩

theorem pcre2Match_found {options : MatchOptions} {a b : Nat}
    (h : r.pcre2Match so options = .found a b) :
    so ≤ a ∧ (r.matchAt a = some b ∨ r.nonEmptyAt a = some b) := by
  cases options with
  | none =>
    rcases pcre2Match_none (r := r) so with ⟨a', e, hrc, hle, he, -⟩ | ⟨hrc, -⟩
    · rw [hrc] at h
      obtain ⟨rfl, rfl⟩ := MatchRc.found.inj h
      exact ⟨hle, Or.inl he⟩
    · rw [hrc] at h
      simp at h
  | notEmptyAtStartAnchored =>
    rcases pcre2Match_retry (r := r) so with ⟨e, hrc, he⟩ | ⟨hrc, -⟩
    · rw [hrc] at h
      obtain ⟨rfl, rfl⟩ := MatchRc.found.inj h
      exact ⟨Nat.le_refl so, Or.inr he⟩
    · rw [hrc] at h
      simp at h

theorem pcre2Match_inBounds (r : Regex file) : r.pcre2Match.InBounds file := by
  intro so options a b _ h
  obtain ⟨hle, h | h⟩ := pcre2Match_found h
  · obtain ⟨h₁, h₂, -⟩ := matchAt_bounds h
    exact ⟨hle, h₁, h₂⟩
  · obtain ⟨h₁, h₂, -⟩ := nonEmptyAt_bounds h
    exact ⟨hle, Nat.le_of_lt h₁, h₂⟩

end Regex

/-- The answers of `pcre2_pattern_info` about a regex and its matches in every file. -/
structure CompiledRegex where
  info : PatternInfo
  regex : (file : Bytes) → Regex file

end Ucg
