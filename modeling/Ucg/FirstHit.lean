import Ucg.CodeUnitTable

/-! When the vectorised searches with a table return the first hit: the registers of the table
are compared one after another with the same sixteen bytes of text. -/

namespace Ucg

open Simd Search

/-- The table in the registers of sixteen entries that the searches load, the last one partial. -/
def registers (table : Bytes) : List Bytes :=
  (List.range (table.length / 16)).map (fun j => (table.drop (16 * j)).take 16) ++
    if 16 * (table.length / 16) < table.length then [table.drop (16 * (table.length / 16))] else []

/-- The comparison of one register with the block of text `b`. -/
def registerHit (cmp : Bytes → Mem → Nat → Nat) (mem : Mem) (cbegin len b : Nat) (register : Bytes) :
    Option Nat :=
  let lsbSet := cmp register (lddqu mem (cbegin + 16 * b)) (min (len - 16 * b) 16)
  if lsbSet < 16 then some (min (16 * b + lsbSet) len) else none

theorem tableBlock_eq (cmp : Bytes → Mem → Nat → Nat) (table : Bytes) (mem : Mem)
    (cbegin len b : Nat) : tableBlock cmp table mem cbegin len b =
      (registers table).findSome? (registerHit cmp mem cbegin len b) := by
  have hfull : ((List.range (table.length / 16)).map fun j => (table.drop (16 * j)).take 16).findSome?
        (registerHit cmp mem cbegin len b) =
      (List.range (table.length / 16)).findSome? fun j =>
        registerHit cmp mem cbegin len b ((table.drop (16 * j)).take 16) := by
    rw [List.findSome?_map]
    rfl
  have hpart : (if 16 * (table.length / 16) < table.length then
      [table.drop (16 * (table.length / 16))] else []).findSome? (registerHit cmp mem cbegin len b) =
      if 16 * (table.length / 16) < table.length then
        registerHit cmp mem cbegin len b (table.drop (16 * (table.length / 16))) else none := by
    split_ifs
    · exact List.findSome?_singleton
    · rfl
  rw [registers, List.findSome?_append, hfull, hpart, tableBlock]
  split
  · rename_i r hr
    exact (congrArg (Option.or · _) hr).symm
  · rename_i hnone
    exact (congrArg (Option.or · _) hnone).symm

theorem flatten_registers (table : Bytes) : (registers table).flatten = table := by
  have htake : ∀ n, ((List.range n).map fun j => (table.drop (16 * j)).take 16).flatten =
      table.take (16 * n) := by
    intro n
    induction n with
    | zero => simp
    | succ n ih =>
      rw [List.range_succ, List.map_append, List.flatten_append, ih, Nat.mul_succ, List.take_add]
      simp
  rw [registers, List.flatten_append, htake]
  by_cases hpart : 16 * (table.length / 16) < table.length
  · rw [if_pos hpart, List.flatten_singleton, List.take_append_drop]
  · rw [if_neg hpart, List.flatten_nil, List.append_nil, List.take_of_length_le (by omega)]

section Search

variable {cmp : Bytes → Mem → Nat → Nat} {hit : Bytes → UInt8 → Bool} {table register : Bytes}
  {mem : Mem} {cbegin len b r : Nat}

/-- The comparison finds the first byte of a fragment that a register hits. -/
def FindsFirst (cmp : Bytes → Mem → Nat → Nat) (hit : Bytes → UInt8 → Bool) : Prop :=
  ∀ register frag lenFrag, cmp register frag lenFrag =
    leastSignificant fun i => decide (i < lenFrag) && hit register (frag i)

def TableHits (hit : Bytes → UInt8 → Bool) (table : Bytes) (c : UInt8) : Prop :=
  ∃ register ∈ registers table, hit register c = true

/-- The first register that hits a byte of the block `b`. -/
def firstRegister (hit : Bytes → UInt8 → Bool) (table : Bytes) (mem : Mem) (cbegin len b : Nat) :
    Option Bytes :=
  (registers table).find? fun register =>
    (List.range (min (len - 16 * b) 16)).any fun k => hit register (mem (cbegin + (16 * b + k)))

/-- In the block of the first hit, the first register that hits anything hits it. -/
def HitsFirstAtOnce (hit : Bytes → UInt8 → Bool) (table : Bytes) (mem : Mem) (cbegin len : Nat) :
    Prop :=
  ∀ i < len, IsFirst (fun j => TableHits hit table (mem (cbegin + j))) len i →
    ∀ register ∈ firstRegister hit table mem cbegin len (i / 16),
      hit register (mem (cbegin + i)) = true

theorem registerHit_eq (hcmp : FindsFirst cmp hit) (mem : Mem) (cbegin len b : Nat)
    (register : Bytes) : ∃ i ≤ 16,
    IsFirst (fun k => k < min (len - 16 * b) 16 ∧ hit register (mem (cbegin + (16 * b + k))) = true)
      16 i ∧
    registerHit cmp mem cbegin len b register = if i < 16 then some (min (16 * b + i) len) else none := by
  have hfirst := isFirst_leastSignificant fun i => decide (i < min (len - 16 * b) 16) &&
    hit register (lddqu mem (cbegin + 16 * b) i)
  rw [← hcmp] at hfirst
  refine ⟨_, hfirst.le, ?_, rfl⟩
  simpa [lddqu, Nat.add_assoc] using hfirst

theorem registerHit_eq_none (hcmp : FindsFirst cmp hit)
    (h : registerHit cmp mem cbegin len b register = none) :
    ∀ j, 16 * b ≤ j → j < 16 * (b + 1) → j < len → hit register (mem (cbegin + j)) = false := by
  obtain ⟨i, hle, hfirst, heq⟩ := registerHit_eq hcmp mem cbegin len b register
  intro j hj hj' hlen
  rw [heq] at h
  have hi : ¬ i < 16 := fun hi => by simp [hi] at h
  have hmiss := hfirst.before (j - 16 * b) (by omega)
  rw [show 16 * b + (j - 16 * b) = j by omega] at hmiss
  simpa [show j - 16 * b < min (len - 16 * b) 16 by omega] using hmiss

theorem registerHit_eq_some (hcmp : FindsFirst cmp hit)
    (h : registerHit cmp mem cbegin len b register = some r) :
    16 * b ≤ r ∧ r < 16 * (b + 1) ∧ r < len ∧ hit register (mem (cbegin + r)) = true ∧
      ∀ j, 16 * b ≤ j → j < r → hit register (mem (cbegin + j)) = false := by
  obtain ⟨i, hle, hfirst, heq⟩ := registerHit_eq hcmp mem cbegin len b register
  rw [heq] at h
  by_cases hi : i < 16
  · obtain ⟨hvalid, hat⟩ := hfirst.hit hi
    rw [if_pos hi, Nat.min_eq_left (by omega)] at h
    obtain rfl := Option.some.inj h
    refine ⟨by omega, by omega, by omega, hat, fun j hj hlt => ?_⟩
    have hmiss := hfirst.before (j - 16 * b) (by omega)
    rw [show 16 * b + (j - 16 * b) = j by omega] at hmiss
    simpa [show j - 16 * b < min (len - 16 * b) 16 by omega] using hmiss
  · simp [hi] at h

theorem firstRegister_hits :
    (List.range (min (len - 16 * b) 16)).any (fun k => hit register (mem (cbegin + (16 * b + k)))) =
      true ↔
    ∃ j, 16 * b ≤ j ∧ j < 16 * (b + 1) ∧ j < len ∧ hit register (mem (cbegin + j)) = true := by
  rw [List.any_eq_true]
  constructor
  · rintro ⟨k, hk, hat⟩
    have hk := List.mem_range.mp hk
    exact ⟨16 * b + k, by omega, by omega, by omega, hat⟩
  · rintro ⟨j, hj, hj', hlen, hat⟩
    refine ⟨j - 16 * b, List.mem_range.mpr (by omega), ?_⟩
    rwa [show 16 * b + (j - 16 * b) = j by omega]

theorem tableBlock_eq_none (hcmp : FindsFirst cmp hit)
    (h : tableBlock cmp table mem cbegin len b = none) :
    ∀ j, 16 * b ≤ j → j < 16 * (b + 1) → j < len → ¬ TableHits hit table (mem (cbegin + j)) := by
  rw [tableBlock_eq, List.findSome?_eq_none_iff] at h
  rintro j hj hj' hlen ⟨register, hregister, hat⟩
  have hmiss := registerHit_eq_none hcmp (h register hregister) j hj hj' hlen
  simp [hat] at hmiss

theorem tableBlock_eq_some (hcmp : FindsFirst cmp hit)
    (h : tableBlock cmp table mem cbegin len b = some r) :
    ∃ register, firstRegister hit table mem cbegin len b = some register ∧
      register ∈ registers table ∧ 16 * b ≤ r ∧ r < 16 * (b + 1) ∧ r < len ∧
      hit register (mem (cbegin + r)) = true ∧
      ∀ j, 16 * b ≤ j → j < r → hit register (mem (cbegin + j)) = false := by
  rw [tableBlock_eq] at h
  obtain ⟨pre, register, post, hsplit, hhit, hbefore⟩ := List.findSome?_eq_some_iff.mp h
  obtain ⟨hle, hlt, hlen, hat, hfirst⟩ := registerHit_eq_some hcmp hhit
  refine ⟨register, ?_, by simp [hsplit], hle, hlt, hlen, hat, hfirst⟩
  rw [firstRegister, hsplit, List.find?_append]
  have hpre : pre.find? (fun register => (List.range (min (len - 16 * b) 16)).any fun k =>
      hit register (mem (cbegin + (16 * b + k)))) = none := by
    rw [List.find?_eq_none]
    intro p hp hany
    obtain ⟨j, hj, hj', hjlen, hjat⟩ := firstRegister_hits.mp hany
    have hmiss := registerHit_eq_none hcmp (hbefore p hp) j hj hj' hjlen
    simp [hjat] at hmiss
  rw [hpre, Option.none_or]
  exact List.find?_cons_of_pos (firstRegister_hits.mpr ⟨r, hle, hlt, hlen, hat⟩)

/-- A search with a table finds the first hit exactly when no register of the table comes before
those that hit it and hits a later byte of the same block. -/
theorem tableSearch_isFirst_iff (hcmp : FindsFirst cmp hit) (table : Bytes) (mem : Mem)
    (cbegin len : Nat) :
    IsFirst (fun j => TableHits hit table (mem (cbegin + j))) len
        (tableSearch cmp table mem cbegin len) ↔
      HitsFirstAtOnce hit table mem cbegin len := by
  rw [tableSearch]
  cases hsearch : (List.range ((len + 15) / 16)).findSome? (tableBlock cmp table mem cbegin len) with
  | none =>
    have hmiss : ∀ j < len, ¬ TableHits hit table (mem (cbegin + j)) := by
      intro j hj
      have hblock := List.findSome?_eq_none_iff.mp hsearch (j / 16) (List.mem_range.mpr (by omega))
      exact tableBlock_eq_none hcmp hblock j (by omega) (by omega) hj
    exact iff_of_true (IsFirst.of_none hmiss) fun i hi hfirst => absurd (hfirst.hit hi) (hmiss i hi)
  | some r =>
    obtain ⟨b, -, hblock, hbefore⟩ := findSome?_range_eq_some hsearch
    obtain ⟨register, hregister, hmem, hle, hlt, hlen, hat, hregisterFirst⟩ :=
      tableBlock_eq_some hcmp hblock
    have hearlier : ∀ j < 16 * b, ¬ TableHits hit table (mem (cbegin + j)) := by
      intro j hj
      exact tableBlock_eq_none hcmp (hbefore (j / 16) (by omega)) j (by omega) (by omega) (by omega)
    have hbr : r / 16 = b := by omega
    rw [Option.getD_some]
    constructor
    · intro hr i hi hfirst first hfirstRegister
      obtain rfl := hfirst.unique hr
      rw [hbr, hregister] at hfirstRegister
      rwa [← Option.some.inj hfirstRegister]
    · intro hcond
      refine ⟨Nat.le_of_lt hlen, fun _ => ⟨register, hmem, hat⟩, fun j hj hjhit => ?_⟩
      -- the least hit lies in the same block, where the register of `r` comes first
      obtain ⟨i, hifirst⟩ := exists_isFirst (fun j => TableHits hit table (mem (cbegin + j))) len
      have hij : i ≤ j := by
        by_contra hgt
        exact hifirst.before j (by omega) hjhit
      have hib : 16 * b ≤ i := by
        by_contra hgt
        exact hearlier i (by omega) (hifirst.hit (by omega))
      have hhit := hcond i (by omega) hifirst register (by
        rw [show i / 16 = b by omega]
        exact hregister)
      have hmiss := hregisterFirst i hib (by omega)
      rw [hhit] at hmiss
      cases hmiss

end Search

section Tables

variable {table : Bytes} {c : UInt8}

theorem findsFirst_cmpEqualAny : FindsFirst cmpEqualAny List.contains := fun _ _ _ => rfl

theorem findsFirst_cmpRanges : FindsFirst cmpRanges inRanges := fun _ _ _ => rfl

theorem tableHits_contains : TableHits List.contains table c ↔ c ∈ table := by
  rw [TableHits]
  conv_rhs => rw [← flatten_registers table, List.mem_flatten]
  simp

theorem inRanges_append_even {front back : Bytes} (h : front.length % 2 = 0) :
    inRanges (front ++ back) c = (inRanges front c || inRanges back c) := by
  match front with
  | [] => simp [inRanges]
  | [_] => simp at h
  | lo :: hi :: rest =>
    have hrest : rest.length % 2 = 0 := by
      simp only [List.length_cons] at h
      omega
    simp only [List.cons_append, inRanges, inRanges_append_even hrest, Bool.or_assoc]

theorem inRanges_flatten {fulls : List Bytes} {last : Bytes}
    (h : ∀ register ∈ fulls, register.length % 2 = 0) :
    inRanges (fulls.flatten ++ last) c = (fulls.any (inRanges · c) || inRanges last c) := by
  induction fulls with
  | nil => simp
  | cons register fulls ih =>
    obtain ⟨hregister, hfulls⟩ := List.forall_mem_cons.mp h
    rw [List.flatten_cons, List.append_assoc, inRanges_append_even hregister, ih hfulls,
      List.any_cons, Bool.or_assoc]

theorem tableHits_inRanges : TableHits inRanges table c ↔ inRanges table c = true := by
  have heven : ∀ register ∈ (List.range (table.length / 16)).map
      (fun j => (table.drop (16 * j)).take 16), register.length % 2 = 0 := by
    intro register hregister
    obtain ⟨j, hj, rfl⟩ := List.mem_map.mp hregister
    have hj := List.mem_range.mp hj
    simp only [List.length_take, List.length_drop]
    omega
  have hflatten := flatten_registers table
  rw [TableHits]
  conv_rhs => rw [← hflatten]
  rw [registers] at hflatten ⊢
  rw [List.flatten_append, inRanges_flatten heven]
  by_cases hpart : 16 * (table.length / 16) < table.length
  · simp [hpart, or_and_right, exists_or]
  · simp [hpart, inRanges]

theorem inRanges_pairs {pairs : List (UInt8 × UInt8)} :
    inRanges (pairs.flatMap fun p => [p.1, p.2]) c = true ↔ ∃ p ∈ pairs, p.1 ≤ c ∧ c ≤ p.2 := by
  rw [← List.append_nil (pairs.flatMap fun p => [p.1, p.2]), inRanges_append]
  simp [inRanges]

end Tables

/-- The two vectorised searches find the first byte of the table, or in a range, exactly when in
the block of text with this byte the first register that hits anything hits it. -/
theorem searches_first_iff (table : Bytes) (pairs : List (UInt8 × UInt8)) (mem : Mem)
    (cbegin len : Nat) :
    (IsFirst (fun j => mem (cbegin + j) ∈ table) len (findFirstOf table mem cbegin len) ↔
        HitsFirstAtOnce List.contains table mem cbegin len) ∧
      (IsFirst (fun j => ∃ p ∈ pairs, p.1 ≤ mem (cbegin + j) ∧ mem (cbegin + j) ≤ p.2) len
          (findFirstInRanges (pairs.flatMap fun p => [p.1, p.2]) mem cbegin len) ↔
        HitsFirstAtOnce inRanges (pairs.flatMap fun p => [p.1, p.2]) mem cbegin len) := by
  constructor
  · have h := tableSearch_isFirst_iff findsFirst_cmpEqualAny table mem cbegin len
    simpa only [tableHits_contains, findFirstOf] using h
  · have h := tableSearch_isFirst_iff findsFirst_cmpRanges (pairs.flatMap fun p => [p.1, p.2]) mem
      cbegin len
    simpa only [tableHits_inRanges, inRanges_pairs, findFirstInRanges] using h

/-- With the table `a`, ..., `q` the search passes over the `q` in `qa`. -/
theorem not_findFirstOf_first :
    ¬ ∀ (table : Bytes) (pairs : List (UInt8 × UInt8)) (mem : Mem) (cbegin len : Nat),
      table.length ≤ 256 → 2 * pairs.length ≤ 256 →
      IsFirst (fun j => mem (cbegin + j) ∈ table) len (findFirstOf table mem cbegin len) ∧
        IsFirst (fun j => ∃ p ∈ pairs, p.1 ≤ mem (cbegin + j) ∧ mem (cbegin + j) ≤ p.2) len
          (findFirstInRanges (pairs.flatMap fun p => [p.1, p.2]) mem cbegin len) := by
  intro hclaim
  let table : Bytes := (List.range 17).map fun i => UInt8.ofNat (97 + i)
  let mem : Mem := fun i => if i = 0 then 113 else 97
  have hfirst := (hclaim table [] mem 0 2 (by decide) (by decide)).1
  have hresult : findFirstOf table mem 0 2 = 1 := by decide
  rw [hresult] at hfirst
  exact hfirst.before 0 (by decide) (by decide)

end Ucg
