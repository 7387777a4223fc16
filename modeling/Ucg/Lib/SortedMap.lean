import Mathlib.Data.List.Basic
import Mathlib.Order.Bounds.Basic

/-! Maps as lists of entries with strictly increasing keys, and the iteration from a lower bound. -/

/-- The entries in the order of their keys, no key twice. -/
structure SortedMap (κ ν : Type*) [LinearOrder κ] where
  entries : List (κ × ν)
  sorted : entries.Pairwise (fun e e' => e.1 < e'.1)

namespace SortedMap

variable {κ ν : Type*} [LinearOrder κ]

def alterEntries (k : κ) (f : Option ν → ν) : List (κ × ν) → List (κ × ν)
  | [] => [(k, f none)]
  | (k', v) :: rest =>
    if k < k' then (k, f none) :: (k', v) :: rest
    else if k = k' then (k, f (some v)) :: rest
    else (k', v) :: alterEntries k f rest

theorem mem_alterEntries {k : κ} {f : Option ν → ν} {e : κ × ν} {l : List (κ × ν)}
    (h : e ∈ alterEntries k f l) : e.1 = k ∨ e ∈ l := by
  induction l with
  | nil =>
    rw [alterEntries, List.mem_singleton] at h
    exact Or.inl (by rw [h])
  | cons a rest ih =>
    obtain ⟨k', v⟩ := a
    rw [alterEntries] at h
    by_cases hlt : k < k'
    · rw [if_pos hlt] at h
      rcases List.mem_cons.mp h with rfl | h
      · exact Or.inl rfl
      · exact Or.inr h
    · rw [if_neg hlt] at h
      by_cases heq : k = k'
      · rw [if_pos heq] at h
        rcases List.mem_cons.mp h with rfl | h
        · exact Or.inl rfl
        · exact Or.inr (List.mem_cons_of_mem _ h)
      · rw [if_neg heq] at h
        rcases List.mem_cons.mp h with rfl | h
        · exact Or.inr List.mem_cons_self
        · exact (ih h).imp_right (List.mem_cons_of_mem _)

theorem pairwise_alterEntries (k : κ) (f : Option ν → ν) {l : List (κ × ν)}
    (h : l.Pairwise (fun e e' => e.1 < e'.1)) :
    (alterEntries k f l).Pairwise (fun e e' => e.1 < e'.1) := by
  induction l with
  | nil => exact List.pairwise_singleton _ _
  | cons a rest ih =>
    obtain ⟨k', v⟩ := a
    obtain ⟨hhead, hrest⟩ := List.pairwise_cons.mp h
    rw [alterEntries]
    by_cases hlt : k < k'
    · rw [if_pos hlt]
      refine List.pairwise_cons.mpr ⟨fun e he => ?_, h⟩
      rcases List.mem_cons.mp he with rfl | he
      · exact hlt
      · exact hlt.trans (hhead e he)
    · rw [if_neg hlt]
      by_cases heq : k = k'
      · subst heq
        rw [if_pos rfl]
        exact List.pairwise_cons.mpr ⟨hhead, hrest⟩
      · rw [if_neg heq]
        refine List.pairwise_cons.mpr ⟨fun e he => ?_, ih hrest⟩
        rcases mem_alterEntries he with hk | he
        · rw [hk]
          exact lt_of_le_of_ne (not_lt.mp hlt) (Ne.symm heq)
        · exact hhead e he

def empty : SortedMap κ ν := ⟨[], List.Pairwise.nil⟩

/-- The entry of `k` becomes `f` of what it was. -/
def alter (m : SortedMap κ ν) (k : κ) (f : Option ν → ν) : SortedMap κ ν :=
  ⟨alterEntries k f m.entries, pairwise_alterEntries k f m.sorted⟩

def erase (m : SortedMap κ ν) (k : κ) : SortedMap κ ν :=
  ⟨m.entries.filter (·.1 ≠ k), m.sorted.filter _⟩

def find? (m : SortedMap κ ν) (k : κ) : Option ν :=
  (m.entries.find? (·.1 = k)).map (·.2)

/-- An entry that exists keeps its value. -/
def insert (m : SortedMap κ ν) (k : κ) (v : ν) : SortedMap κ ν :=
  m.alter k (·.getD v)

def assign (m : SortedMap κ ν) (k : κ) (v : ν) : SortedMap κ ν :=
  m.alter k fun _ => v

/-- The entries from the first key that is not less than `k`. -/
def lowerBound (m : SortedMap κ ν) (k : κ) : List (κ × ν) :=
  m.entries.dropWhile (·.1 < k)

theorem find?_alterEntries (k k' : κ) [Decidable (k' = k)] (f : Option ν → ν)
    {l : List (κ × ν)} (h : l.Pairwise (fun e e' => e.1 < e'.1)) :
    ((alterEntries k f l).find? (·.1 = k')).map (·.2) =
      if k' = k then some (f ((l.find? (·.1 = k)).map (·.2)))
      else (l.find? (·.1 = k')).map (·.2) := by
  induction l with
  | nil => by_cases hk : k' = k <;> simp [alterEntries, hk, Ne.symm]
  | cons a rest ih =>
    obtain ⟨k₀, v⟩ := a
    obtain ⟨hhead, hrest⟩ := List.pairwise_cons.mp h
    rw [alterEntries]
    by_cases hlt : k < k₀
    · have hnone : rest.find? (·.1 = k) = none := by
        rw [List.find?_eq_none]
        intro e he
        simpa using (hlt.trans (hhead e he)).ne'
      by_cases hk : k' = k
      · simp [hlt, hk, hlt.ne', hnone]
      · simp [hlt, hk, Ne.symm hk]
    · by_cases heq : k = k₀
      · subst heq
        by_cases hk : k' = k
        · simp [hk]
        · simp [hk, Ne.symm hk]
      · by_cases hk : k' = k
        · subst hk
          simpa [hlt, heq, Ne.symm heq] using ih hrest
        · by_cases hk₀ : k₀ = k'
          · subst hk₀
            simp [hlt, heq, hk]
          · simpa [hlt, heq, hk, hk₀] using ih hrest

@[simp] theorem find?_empty (k : κ) : (empty : SortedMap κ ν).find? k = none := rfl

theorem find?_alter (m : SortedMap κ ν) (k k' : κ) [Decidable (k' = k)] (f : Option ν → ν) :
    (m.alter k f).find? k' = if k' = k then some (f (m.find? k)) else m.find? k' :=
  find?_alterEntries k k' f m.sorted

theorem find?_insert (m : SortedMap κ ν) (k k' : κ) [Decidable (k' = k)] (v : ν) :
    (m.insert k v).find? k' = if k' = k then some ((m.find? k).getD v) else m.find? k' :=
  m.find?_alter k k' _

theorem find?_erase (m : SortedMap κ ν) (k k' : κ) [Decidable (k' = k)] :
    (m.erase k).find? k' = if k' = k then none else m.find? k' := by
  rw [find?, erase, List.find?_filter]
  by_cases hk : k' = k
  · simp [hk]
  · rw [if_neg hk]
    refine congrArg (Option.map _) (congrArg (List.find? · m.entries) (funext fun e => ?_))
    by_cases he : e.1 = k' <;> simp [he, hk]

theorem mem_entries_iff {m : SortedMap κ ν} {k : κ} {v : ν} :
    (k, v) ∈ m.entries ↔ m.find? k = some v := by
  obtain ⟨l, hl⟩ := m
  simp only [find?]
  induction l with
  | nil => simp
  | cons a rest ih =>
    obtain ⟨k₀, v₀⟩ := a
    obtain ⟨hhead, hrest⟩ := List.pairwise_cons.mp hl
    by_cases hk : k₀ = k
    · subst hk
      have hnot : ∀ w, (k₀, w) ∉ rest := fun w h => lt_irrefl k₀ (hhead _ h)
      simp [hnot, eq_comm]
    · simpa [hk, Ne.symm hk] using ih hrest

theorem mem_keys_iff {m : SortedMap κ ν} {k : κ} :
    k ∈ m.entries.map (·.1) ↔ ∃ v, m.find? k = some v := by
  simp [← mem_entries_iff]

theorem eq_of_find? {m m' : SortedMap κ ν} (h : ∀ k, m.find? k = m'.find? k) : m = m' := by
  have hnodup (m : SortedMap κ ν) : m.entries.Nodup :=
    m.sorted.imp fun hlt => ne_of_apply_ne Prod.fst hlt.ne
  have hperm : m.entries.Perm m'.entries := by
    refine (List.perm_ext_iff_of_nodup (hnodup m) (hnodup m')).mpr fun e => ?_
    rw [← Prod.eta e, mem_entries_iff, mem_entries_iff, h]
  have heq : m.entries = m'.entries :=
    hperm.eq_of_pairwise (fun _ _ _ _ hlt hgt => absurd hlt hgt.asymm) m.sorted m'.sorted
  cases m
  cases m'
  simpa using heq

theorem lowerBound_of_find? {m : SortedMap κ ν} {k : κ} {v : ν} (h : m.find? k = some v) :
    ∃ rest, m.lowerBound k = (k, v) :: rest := by
  have hmem := mem_entries_iff.mpr h
  obtain ⟨l, hl⟩ := m
  simp only [lowerBound] at hmem ⊢
  clear h
  induction l with
  | nil => simp at hmem
  | cons a rest ih =>
    obtain ⟨hhead, hrest⟩ := List.pairwise_cons.mp hl
    rcases List.mem_cons.mp hmem with rfl | hmem
    · exact ⟨rest, by simp⟩
    · have hlt : a.1 < k := hhead _ hmem
      obtain ⟨rest', hrest'⟩ := ih hrest hmem
      exact ⟨rest', by simpa [hlt] using hrest'⟩

theorem mem_lowerBound_iff {m : SortedMap κ ν} {k : κ} {e : κ × ν} :
    e ∈ m.lowerBound k ↔ e ∈ m.entries ∧ k ≤ e.1 := by
  obtain ⟨l, hl⟩ := m
  simp only [lowerBound]
  induction l with
  | nil => simp
  | cons a rest ih =>
    obtain ⟨hhead, hrest⟩ := List.pairwise_cons.mp hl
    by_cases hlt : a.1 < k
    · have hne : k ≤ e.1 → e ≠ a := fun hle he => absurd hlt (not_lt.mpr (he ▸ hle))
      rw [List.dropWhile_cons_of_pos (by simpa using hlt), ih hrest, List.mem_cons]
      exact ⟨fun h => ⟨Or.inr h.1, h.2⟩, fun h => ⟨h.1.resolve_left (hne h.2), h.2⟩⟩
    · rw [List.dropWhile_cons_of_neg (by simpa using hlt), iff_self_and]
      intro he
      rcases List.mem_cons.mp he with rfl | he
      · exact not_lt.mp hlt
      · exact (not_lt.mp hlt).trans (hhead e he).le

theorem mem_keys_lowerBound_iff {m : SortedMap κ ν} {k k' : κ} :
    k' ∈ (m.lowerBound k).map (·.1) ↔ (∃ v, m.find? k' = some v) ∧ k ≤ k' := by
  rw [List.mem_map, ← mem_keys_iff, List.mem_map]
  constructor
  · rintro ⟨e, he, rfl⟩
    obtain ⟨hmem, hle⟩ := mem_lowerBound_iff.mp he
    exact ⟨⟨e, hmem, rfl⟩, hle⟩
  · rintro ⟨⟨e, hmem, rfl⟩, hle⟩
    exact ⟨e, mem_lowerBound_iff.mpr ⟨hmem, hle⟩, rfl⟩

theorem pairwise_keys_lowerBound (m : SortedMap κ ν) (k : κ) :
    ((m.lowerBound k).map (·.1)).Pairwise (· < ·) :=
  List.pairwise_map.mpr (m.sorted.sublist (List.dropWhile_sublist _))

theorem takeWhile_eq_nil_iff_least {l : List κ} (h : l.Pairwise (· < ·)) (p : κ → Bool) :
    l.takeWhile p = [] ↔ ∀ u, IsLeast {x | x ∈ l} u → p u = false := by
  cases l with
  | nil => simp [IsLeast]
  | cons a rest =>
    have hleast : IsLeast {x | x ∈ a :: rest} a := by
      refine ⟨List.mem_cons_self, fun x hx => ?_⟩
      rcases List.mem_cons.mp hx with rfl | hx
      · exact le_rfl
      · exact ((List.pairwise_cons.mp h).1 x hx).le
    constructor
    · intro hnil u hu
      rw [hu.unique hleast]
      by_contra ha
      have htrue : p a = true := by simpa using ha
      simp [htrue] at hnil
    · intro hstop
      simp [hstop a hleast]

theorem mem_takeWhile_iff_forall_le {l : List κ} (h : l.Pairwise (· < ·)) {p : κ → Bool} {x : κ} :
    x ∈ l.takeWhile p ↔ x ∈ l ∧ ∀ y ∈ l, y ≤ x → p y = true := by
  induction l with
  | nil => simp
  | cons a rest ih =>
    obtain ⟨hhead, hrest⟩ := List.pairwise_cons.mp h
    by_cases ha : p a = true
    · rw [List.takeWhile_cons_of_pos ha, List.mem_cons, List.mem_cons, ih hrest]
      constructor
      · rintro (rfl | ⟨hx, hall⟩)
        · refine ⟨Or.inl rfl, fun y hy hle => ?_⟩
          rcases List.mem_cons.mp hy with rfl | hy
          · exact ha
          · exact absurd (hhead y hy) (not_lt.mpr hle)
        · refine ⟨Or.inr hx, fun y hy hle => ?_⟩
          rcases List.mem_cons.mp hy with rfl | hy
          · exact ha
          · exact hall y hy hle
      · rintro ⟨hx, hall⟩
        exact hx.imp_right fun hx => ⟨hx, fun y hy => hall y (List.mem_cons_of_mem _ hy)⟩
    · rw [List.takeWhile_cons_of_neg ha]
      refine iff_of_false List.not_mem_nil ?_
      rintro ⟨hx, hall⟩
      refine ha (hall a List.mem_cons_self ?_)
      rcases List.mem_cons.mp hx with rfl | hx
      · exact le_rfl
      · exact (hhead x hx).le

end SortedMap
