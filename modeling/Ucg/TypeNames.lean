import Mathlib.Data.Finset.Max
import Ucg.TypeWords

/-! `GetMatchingTypenameList`: which of the names that it returns begin with the text. -/

namespace Ucg

open ByteOrder

section Lexicographic

variable {α : Type*} [LinearOrder α] {a b : α} {p x y l m : List α}

theorem cons_le_cons_iff_lex : a :: l ≤ b :: m ↔ a < b ∨ a = b ∧ l ≤ m := by
  rw [← not_lt, ← not_lt, List.cons_lt_cons_iff, not_or, not_and, not_lt, le_iff_lt_or_eq]
  constructor
  · rintro ⟨hab | hab, hrest⟩
    · exact Or.inl hab
    · exact Or.inr ⟨hab, hrest hab.symm⟩
  · rintro (hab | ⟨rfl, hrest⟩)
    · exact ⟨Or.inl hab, fun hba => absurd hab (hba ▸ lt_irrefl _)⟩
    · exact ⟨Or.inr rfl, fun _ => hrest⟩

theorem le_of_isPrefix (h : p <+: x) : p ≤ x := by
  obtain ⟨tail, rfl⟩ := h
  induction p with
  | nil =>
    cases tail with
    | nil => exact le_rfl
    | cons b tail => exact (List.nil_lt_cons b tail).le
  | cons a p ih => exact List.cons_le_cons a ih

theorem isPrefix_of_between (hpx : p ≤ x) (hxy : x ≤ y) (hy : p <+: y) : p <+: x := by
  induction p generalizing x y with
  | nil => exact List.nil_prefix
  | cons a p ih =>
    obtain ⟨tail, rfl⟩ := hy
    cases x with
    | nil => exact absurd hpx (not_le.mpr (List.nil_lt_cons a p))
    | cons b x =>
      rw [List.cons_append, cons_le_cons_iff_lex] at hxy
      rcases cons_le_cons_iff_lex.mp hpx with hab | ⟨rfl, hrest⟩
      · rcases hxy with hba | ⟨rfl, -⟩
        · exact absurd hab hba.asymm
        · exact absurd hab (lt_irrefl _)
      · rcases hxy with haa | ⟨-, hxy⟩
        · exact absurd haa (lt_irrefl _)
        · exact (List.prefix_cons_inj a).mpr (ih hrest hxy (List.prefix_append _ _))

theorem exists_isLeast_le {P : α → Prop} {xs : List α} {v : α} (hv : v ∈ xs) (hP : P v) :
    ∃ u, IsLeast {w | w ∈ xs ∧ P w} u ∧ u ≤ v := by
  classical
  have hmem : v ∈ xs.toFinset.filter P := by simp [hv, hP]
  have hleast := Finset.isLeast_min' (xs.toFinset.filter P) ⟨v, hmem⟩
  refine ⟨_, ?_, hleast.2 hmem⟩
  simpa only [Finset.coe_filter, List.mem_toFinset] using hleast

end Lexicographic

namespace TypeManager

variable {tm : TypeManager} {p X : Bytes}

theorem mem_getMatchingTypenameList_iff : X ∈ tm.getMatchingTypenameList p ↔
    tm.IsDefined X ∧ p ≤ X ∧ ∀ Y, tm.IsDefined Y → p ≤ Y → Y ≤ X → p <:+: Y := by
  rw [getMatchingTypenameList,
    SortedMap.mem_takeWhile_iff_forall_le (tm.builtinAndUserTypeMap.pairwise_keys_lowerBound p),
    SortedMap.mem_keys_lowerBound_iff, and_assoc]
  refine and_congr_right fun _ => and_congr_right fun _ => ?_
  simp only [SortedMap.mem_keys_lowerBound_iff, decide_eq_true_eq, and_imp]
  rfl

/-- The list holds the defined names that begin with the text, in ascending order. -/
def ListsNamesWith (tm : TypeManager) (p : Bytes) (names : List Bytes) : Prop :=
  (∀ X, X ∈ names ↔ tm.IsDefined X ∧ p <+: X) ∧ names.Pairwise (· < ·)

theorem mem_getMatchingTypenameList_of_isPrefix (hdef : tm.IsDefined X) (h : p <+: X) :
    X ∈ tm.getMatchingTypenameList p :=
  mem_getMatchingTypenameList_iff.mpr
    ⟨hdef, le_of_isPrefix h, fun _ _ hle hYX => (isPrefix_of_between hle hYX h).isInfix⟩

theorem mem_getMatchingTypenameList_of_isLeast
    (hleast : IsLeast {V | tm.IsDefined V ∧ p < V ∧ ¬ p <+: V} X) (h : p <:+: X) :
    X ∈ tm.getMatchingTypenameList p := by
  refine mem_getMatchingTypenameList_iff.mpr ⟨hleast.1.1, hleast.1.2.1.le, fun Y hY hle hYX => ?_⟩
  by_contra hnot
  have hprefix : ¬ p <+: Y := fun hY => hnot hY.isInfix
  have hlt : p < Y := lt_of_le_of_ne hle fun heq => hprefix (heq ▸ List.prefix_rfl)
  exact hnot (le_antisymm hYX (hleast.2 ⟨hY, hlt, hprefix⟩) ▸ h)

/-- The names returned are those that begin with the text exactly when the first name behind these
does not contain it. -/
theorem listsNamesWith_iff (tm : TypeManager) (p : Bytes) :
    tm.ListsNamesWith p (tm.getMatchingTypenameList p) ↔
      ∀ X, IsLeast {V | tm.IsDefined V ∧ p < V ∧ ¬ p <+: V} X → ¬ p <:+: X := by
  constructor
  · intro hlists X hleast h
    have hmem := mem_getMatchingTypenameList_of_isLeast hleast h
    exact hleast.1.2.2 ((hlists.1 X).mp hmem).2
  · intro hnext
    refine ⟨fun X => ⟨fun hX => ?_, fun h => mem_getMatchingTypenameList_of_isPrefix h.1 h.2⟩, ?_⟩
    · obtain ⟨hdef, hle, hall⟩ := mem_getMatchingTypenameList_iff.mp hX
      refine ⟨hdef, ?_⟩
      by_contra hprefix
      have hlt : p < X := lt_of_le_of_ne hle fun heq => hprefix (heq ▸ List.prefix_rfl)
      obtain ⟨u, hleast, hu⟩ := exists_isLeast_le (P := fun V => p < V ∧ ¬ p <+: V)
        (SortedMap.mem_keys_iff.mpr hdef) ⟨hlt, hprefix⟩
      have hleast' : IsLeast {V | tm.IsDefined V ∧ p < V ∧ ¬ p <+: V} u := by
        simpa only [SortedMap.mem_keys_iff, IsDefined] using hleast
      exact hnext u hleast' (hall u hleast'.1.1 hleast'.1.2.1.le hu)
    · exact (tm.builtinAndUserTypeMap.pairwise_keys_lowerBound p).sublist
        (List.takeWhile_prefix _).sublist

/-- `batch` comes behind the names that begin with `a`, and contains one. -/
theorem not_listsNamesWith_a :
    ¬ TypeManager.new.ListsNamesWith (str "a") (TypeManager.new.getMatchingTypenameList (str "a")) := by
  have hmem : str "batch" ∈ TypeManager.new.getMatchingTypenameList (str "a") := by
    refine mem_getMatchingTypenameList_iff.mpr ⟨isDefined_new (by decide), by decide, ?_⟩
    rintro Y ⟨filters, hfind⟩ hle hY
    exact forall_builtinTypeMap (P := fun t _ => str "a" ≤ t → t ≤ str "batch" → str "a" <:+: t)
      (by decide) hfind hle hY
  exact fun hlists => absurd ((hlists.1 _).mp hmem).2 (by decide)

end TypeManager

end Ucg
