import Ucg.TypeDefinitions

/-! The net effect of a sequence of `type` and `notype` calls on states that only definitions
have reached. -/

namespace Ucg

open ByteOrder

namespace TypeManager

variable {tm : TypeManager} {cs : List TypeCall} {t f : Bytes}

/-- All types that no call deselects while no call selects one, else the types selected and
not deselected later. -/
def IsActiveType (tm : TypeManager) (cs : List TypeCall) (t : Bytes) : Prop :=
  ((∀ u, TypeCall.type u ∉ cs) ∧ tm.IsDefined t ∧ TypeCall.notype t ∉ cs) ∨
    ∃ pre post, cs = pre ++ TypeCall.type t :: post ∧ TypeCall.notype t ∉ post

def NetEffect (tm : TypeManager) (cs : List TypeCall) (f : Bytes) : Prop :=
  (∃ t filters, tm.IsActiveType cs t ∧ tm.builtinAndUserTypeMap.find? t = some filters ∧
      f ∈ filters) ∧
    ∀ c, lastSuch (tm.concerns f) cs = some c → ∀ t, c ≠ .notype t

theorem lastSuch_type_iff : lastSuch (·.typeName = t) cs = some (.type t) ↔
    ∃ pre post, cs = pre ++ TypeCall.type t :: post ∧ ∀ c ∈ post, c.typeName ≠ t := by
  simp [lastSuch_eq_some_iff]

/-- A call that selects `t` and is not undone later is followed by a last call that names `t`,
and that call selects it. -/
theorem lastSuch_of_selected (h : ∃ pre post, cs = pre ++ TypeCall.type t :: post ∧
    TypeCall.notype t ∉ post) : lastSuch (·.typeName = t) cs = some (.type t) := by
  obtain ⟨pre, post, rfl, hpost⟩ := h
  induction post using List.reverseRecOn with
  | nil => simp [lastSuch_concat]
  | append_singleton post c ih =>
    rw [← List.cons_append, ← List.append_assoc, lastSuch_concat]
    by_cases hc : c.typeName = t
    · cases c with
      | type u =>
        obtain rfl : u = t := hc
        simp
      | notype u =>
        obtain rfl : u = t := hc
        simp at hpost
    · rw [if_neg (by simpa using hc)]
      exact ih fun hmem => hpost (List.mem_append_left _ hmem)

theorem selected_iff : (∃ pre post, cs = pre ++ TypeCall.type t :: post ∧
    TypeCall.notype t ∉ post) ↔ lastSuch (·.typeName = t) cs = some (.type t) := by
  constructor
  · exact lastSuch_of_selected
  · intro h
    obtain ⟨pre, post, hcs, hpost⟩ := lastSuch_type_iff.mp h
    exact ⟨pre, post, hcs, fun hmem => hpost _ hmem rfl⟩

theorem any_isType_iff : cs.any TypeCall.isType = true ↔ ∃ u, TypeCall.type u ∈ cs := by
  rw [List.any_eq_true]
  constructor
  · rintro ⟨c, hc, htype⟩
    cases c with
    | type u => exact ⟨u, hc⟩
    | notype u => simp at htype
  · rintro ⟨u, hu⟩
    exact ⟨_, hu, rfl⟩

theorem keptFilters_of_onlyDefined (h : tm.OnlyDefined) :
    tm.keptFilters cs t =
      if cs.any TypeCall.isType = true then none else tm.builtinAndUserTypeMap.find? t := by
  rw [keptFilters, h.activeTypeMap]
  exact if_congr (and_iff_right h.firstTypeHasBeenSeen) rfl rfl

/-- Where only definitions came before, an active type is active as it is defined. -/
theorem activeFilters_eq_some_iff (h : tm.OnlyDefined) {filters : List Bytes} :
    tm.activeFilters cs t = some filters ↔
      tm.IsActiveType cs t ∧ tm.builtinAndUserTypeMap.find? t = some filters := by
  rw [IsActiveType, selected_iff, activeFilters, keptFilters_of_onlyDefined h]
  cases hlast : lastSuch (·.typeName = t) cs with
  | none =>
    have hnotype := notype_not_mem_of_lastSuch hlast
    by_cases hany : cs.any TypeCall.isType = true
    · obtain ⟨u, hu⟩ := any_isType_iff.mp hany
      simp only [hany, if_true, reduceCtorEq, or_false, false_iff, not_and]
      exact fun hactive => (hactive.1 u hu).elim
    · have hnone : ∀ u, TypeCall.type u ∉ cs := fun u hu => hany (any_isType_iff.mpr ⟨u, hu⟩)
      rw [if_neg hany]
      simp only [reduceCtorEq, or_false, iff_and_self]
      exact fun hfind => ⟨hnone, ⟨filters, hfind⟩, hnotype⟩
  | some c =>
    obtain ⟨hmem, hname⟩ := lastSuch_mem hlast
    have hname := of_decide_eq_true hname
    cases c with
    | notype u =>
      obtain rfl : u = t := hname
      simp [hmem]
    | type u =>
      obtain rfl : u = t := hname
      have hany : cs.any TypeCall.isType = true := any_isType_iff.mpr ⟨u, hmem⟩
      simp [hany]

theorem isActiveFilter_calls_iff (h : tm.OnlyDefined) (hdef : ∀ c ∈ cs, tm.IsDefined c.typeName) :
    (tm.calls cs).IsActiveFilter f ↔ ∃ t filters, tm.IsActiveType cs t ∧
      tm.builtinAndUserTypeMap.find? t = some filters ∧ f ∈ filters := by
  simp only [IsActiveFilter, find?_activeTypeMap_calls hdef, activeFilters_eq_some_iff h, and_assoc]

theorem not_isRemovedFilter_calls_iff (h : tm.OnlyDefined) :
    ¬ (tm.calls cs).IsRemovedFilter f ↔
      ∀ c, lastSuch (tm.concerns f) cs = some c → ∀ t, c ≠ .notype t := by
  rw [isRemovedFilter_calls]
  cases hlast : lastSuch (tm.concerns f) cs with
  | none => simp [IsRemovedFilter, h.removedTypeFilters]
  | some c => cases c <;> simp

theorem netEffect_iff (h : tm.OnlyDefined) (hdef : ∀ c ∈ cs, tm.IsDefined c.typeName) :
    tm.NetEffect cs f ↔ (tm.calls cs).IsActiveFilter f ∧ ¬ (tm.calls cs).IsRemovedFilter f := by
  rw [NetEffect, isActiveFilter_calls_iff h hdef, not_isRemovedFilter_calls_iff h]

theorem filterKind_glob_iff : filterKind f = .glob ↔ str "?" <+: f := by
  by_cases hglob : str "?" <+: f
  · obtain ⟨rest, rfl⟩ := hglob
    have hhead : (str "?" ++ rest).head? = some 63 := rfl
    have hdot : ¬ (some 63 = some dot) := by decide
    have hslash : ¬ (some 63 = some slash) := by decide
    simp [filterKind, hhead, hdot, hslash]
  · rw [filterKind, if_neg hglob]
    split_ifs <;> simp [hglob]

end TypeManager

open TypeManager

/-- The tables hold `f` exactly when the net effect of the calls selects it, but for a filter
that begins with a question mark, which `CompileTypeTables` takes for a glob. -/
theorem inSearchTables_calls_iff {tm : TypeManager} (h : DefinedByExtIs tm) (cs : List TypeCall)
    (hdef : ∀ c ∈ cs, tm.IsDefined c.typeName) (f : CString) :
    (((tm.calls cs).compileTypeTables.InSearchTables f.bytes ↔ tm.NetEffect cs f.bytes) ↔
        ¬ (str "?" <+: f.bytes ∧ tm.NetEffect cs f.bytes)) ∧
      ∀ t, ¬ tm.IsDefined t →
        (tm.calls cs).type t = (false, tm.calls cs) ∧
          (tm.calls cs).notype t = (false, tm.calls cs) := by
  have honly := h.onlyDefined
  constructor
  · rw [inSearchTables_iff (honly.uncompiled.calls cs) f.nulFree, ← netEffect_iff honly hdef,
      ne_eq, filterKind_glob_iff]
    tauto
  · intro t ht
    have hundef : ¬ (tm.calls cs).IsDefined t := by
      rwa [IsDefined, (sameDefinitions_calls tm cs).builtinAndUserTypeMap]
    exact ⟨type_of_not_defined hundef, notype_of_not_defined hundef⟩

theorem inSearchTables_calls_iff_cc :
    (TypeManager.new.calls [.type (str "cc"), .notype (str "hh")]).compileTypeTables.InSearchTables
      (str ".c") ↔
        TypeManager.new.NetEffect [.type (str "cc"), .notype (str "hh")] (str ".c") := by
  have hdef : ∀ c ∈ [TypeCall.type (str "cc"), TypeCall.notype (str "hh")],
      TypeManager.new.IsDefined c.typeName := by
    intro c hc
    refine isDefined_new ?_
    revert c
    decide
  have h := inSearchTables_calls_iff .new _ hdef ⟨str ".c", by decide⟩
  exact h.1.mpr fun hglob => absurd hglob.1 (by decide)

/-- `--type-add=q:is:?x --type=q`: the file name `?x` is selected and in no table. -/
theorem not_inSearchTables_question_mark : ¬ ∀ tm, DefinedByExtIs tm → ∀ cs : List TypeCall,
    (∀ c ∈ cs, tm.IsDefined c.typeName) → ∀ f : CString,
      ((tm.calls cs).compileTypeTables.InSearchTables f.bytes ↔ tm.NetEffect cs f.bytes) := by
  intro hclaim
  have hsplit : split (str "q:is:?x") colon = [str "q", str "is", str "?x"] := by decide
  have hadd : TypeManager.new.typeAddFromFilterSpecString false (str "q:is:?x") =
      .ok (TypeManager.new.typeAddIs (str "q") (str "?x")) := by
    simp [typeAddFromFilterSpecString, hsplit]
  have hdefined := DefinedByExtIs.add false ⟨str "q:is:?x", by decide⟩ (str "q") (str "is")
    (str "?x") .new hsplit (Or.inr rfl) hadd
  have hfind : (TypeManager.new.typeAddIs (str "q") (str "?x")).builtinAndUserTypeMap.find?
      (str "q") = some [str "?x"] := by
    refine (TypeMap.find?_pushBack builtinTypeMap _ _ _).trans ((if_pos rfl).trans ?_)
    rw [find?_builtinTypeMap_q]
    rfl
  have hdef : ∀ c ∈ [TypeCall.type (str "q")],
      (TypeManager.new.typeAddIs (str "q") (str "?x")).IsDefined c.typeName := by
    intro c hc
    rw [List.mem_singleton.mp hc]
    exact ⟨_, hfind⟩
  have hiff := hclaim _ hdefined [.type (str "q")] hdef ⟨str "?x", by decide⟩
  have honly := hdefined.onlyDefined
  rw [inSearchTables_iff (honly.uncompiled.calls _) (by decide)] at hiff
  refine (hiff.mpr ⟨⟨str "q", [str "?x"], ?_, hfind, by decide⟩, ?_⟩).1 (by decide)
  · exact Or.inr ⟨[], [], rfl, by simp⟩
  · intro c hc t
    obtain rfl := List.mem_singleton.mp (lastSuch_mem hc).1
    simp

end Ucg
