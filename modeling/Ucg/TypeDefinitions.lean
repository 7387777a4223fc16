import Ucg.TypeSelection

/-! Type definitions: what one specification can do to the state, and what states reached by
definitions alone look like. -/

namespace Ucg

open ByteOrder

theorem allFilters_builtinTypeMap : builtinTypeMap.AllFilters (nul ∉ ·) := by
  intro t filters hfind f hf
  obtain ⟨-, -, -, -, hfilters⟩ := builtinTypeMap_wellFormed hfind
  exact (hfilters f hf).1

namespace TypeManager

variable {tm tm' : TypeManager}

/-- The state that the new filters are added to. -/
def specBase (tm : TypeManager) (deleteTypeFirst : Bool) (fileType : Bytes) : TypeManager :=
  if deleteTypeFirst then (tm.typeDel fileType).2 else tm

/-- The filters of the arguments, added to the type after its deletion where this is asked for. -/
def AddsFilters (tm : TypeManager) (deleteTypeFirst : Bool)
    (fileType filterType filterArgs : Bytes) (tm' : TypeManager) : Prop :=
  let base := tm.specBase deleteTypeFirst fileType
  (filterType = str "is" ∧ tm' = base.typeAddIs fileType filterArgs) ∨
  (filterType = str "ext" ∧ tm' =
    (split filterArgs comma).foldl (fun tm ext => tm.typeAddExt fileType ext) base) ∨
  (filterType = str "globx" ∧ tm' = base.typeAddGlobExclude filterArgs) ∨
  (filterType = str "glob" ∧ tm' = base.typeAddGlobInclude fileType filterArgs)

theorem typeAddFromFilterSpecString_cases {deleteTypeFirst : Bool} {spec : Bytes}
    (h : tm.typeAddFromFilterSpecString deleteTypeFirst spec = .ok tm') :
    ∃ fileType filterType filterArgs, split spec colon = [fileType, filterType, filterArgs] ∧
      tm.AddsFilters deleteTypeFirst fileType filterType filterArgs tm' := by
  rw [typeAddFromFilterSpecString] at h
  split at h
  · rename_i fileType filterType filterArgs hsplit
    refine ⟨fileType, filterType, filterArgs, hsplit, ?_⟩
    dsimp only at h ⊢
    by_cases his : filterType = str "is"
    · rw [if_pos his] at h
      exact Or.inl ⟨his, (Except.ok.inj h).symm⟩
    · rw [if_neg his] at h
      by_cases hext : filterType = str "ext"
      · rw [if_pos hext] at h
        exact Or.inr (Or.inl ⟨hext, (Except.ok.inj h).symm⟩)
      · rw [if_neg hext] at h
        by_cases hglobx : filterType = str "globx"
        · rw [if_pos hglobx] at h
          exact Or.inr (Or.inr (Or.inl ⟨hglobx, (Except.ok.inj h).symm⟩))
        · rw [if_neg hglobx] at h
          by_cases hglob : filterType = str "glob"
          · rw [if_pos hglob] at h
            exact Or.inr (Or.inr (Or.inr ⟨hglob, (Except.ok.inj h).symm⟩))
          · rw [if_neg hglob] at h
            cases h
  · cases h

theorem typeAddFromFilterSpecString_of_split {deleteTypeFirst : Bool}
    {spec fileType filterType filterArgs : Bytes}
    (hsplit : split spec colon = [fileType, filterType, filterArgs])
    (h : tm.typeAddFromFilterSpecString deleteTypeFirst spec = .ok tm') :
    tm.AddsFilters deleteTypeFirst fileType filterType filterArgs tm' := by
  obtain ⟨fileType', filterType', filterArgs', hsplit', hcases⟩ :=
    typeAddFromFilterSpecString_cases h
  obtain ⟨rfl, rfl, rfl⟩ : fileType' = fileType ∧ filterType' = filterType ∧
      filterArgs' = filterArgs := by simpa [hsplit] using hsplit'.symm
  exact hcases

/-- The states that specifications with the filters `ext` and `is`, and deletions, reach. -/
inductive DefinedByExtIs : TypeManager → Prop
  | new : DefinedByExtIs .new
  | add {tm tm' : TypeManager} (deleteTypeFirst : Bool) (spec : CString)
      (fileType filterType filterArgs : Bytes) : DefinedByExtIs tm →
      split spec.bytes colon = [fileType, filterType, filterArgs] →
      filterType = str "ext" ∨ filterType = str "is" →
      tm.typeAddFromFilterSpecString deleteTypeFirst spec.bytes = .ok tm' → DefinedByExtIs tm'
  | del {tm : TypeManager} (type : Bytes) : DefinedByExtIs tm → DefinedByExtIs (tm.typeDel type).2

/-- Every type is active as it is defined, and nothing was selected yet. -/
structure OnlyDefined (tm : TypeManager) : Prop where
  firstTypeHasBeenSeen : tm.firstTypeHasBeenSeen = false
  activeTypeMap : tm.activeTypeMap = tm.builtinAndUserTypeMap
  removedTypeFilters : tm.removedTypeFilters = []
  uncompiled : tm.Uncompiled

theorem onlyDefined_new : OnlyDefined .new where
  firstTypeHasBeenSeen := rfl
  activeTypeMap := rfl
  removedTypeFilters := rfl
  uncompiled := ⟨rfl, rfl, rfl, allFilters_builtinTypeMap, allFilters_builtinTypeMap⟩

theorem OnlyDefined.typeAddIs (h : tm.OnlyDefined) (type : Bytes) {name : Bytes}
    (hname : nul ∉ name) : (tm.typeAddIs type name).OnlyDefined where
  firstTypeHasBeenSeen := h.firstTypeHasBeenSeen
  activeTypeMap := congrArg (·.pushBack type name) h.activeTypeMap
  removedTypeFilters := h.removedTypeFilters
  uncompiled := ⟨h.uncompiled.1, h.uncompiled.2, h.uncompiled.3,
    h.uncompiled.definedNulFree.pushBack type hname,
    h.uncompiled.activeNulFree.pushBack type hname⟩

theorem OnlyDefined.typeAddExt (h : tm.OnlyDefined) (type : Bytes) {ext : Bytes}
    (hext : nul ∉ ext) : (tm.typeAddExt type ext).OnlyDefined :=
  h.typeAddIs type (by simpa [dot, nul] using hext)

theorem OnlyDefined.typeDel (h : tm.OnlyDefined) (type : Bytes) :
    (tm.typeDel type).2.OnlyDefined where
  firstTypeHasBeenSeen := h.firstTypeHasBeenSeen
  activeTypeMap := congrArg (·.erase type) h.activeTypeMap
  removedTypeFilters := h.removedTypeFilters
  uncompiled := ⟨h.uncompiled.1, h.uncompiled.2, h.uncompiled.3,
    h.uncompiled.definedNulFree.erase type, h.uncompiled.activeNulFree.erase type⟩

theorem DefinedByExtIs.onlyDefined (h : DefinedByExtIs tm) : tm.OnlyDefined := by
  induction h with
  | new => exact onlyDefined_new
  | @add tm tm' deleteTypeFirst spec fileType filterType filterArgs _ hsplit hfilter hadd ih =>
    have hparts : ∀ part ∈ split spec.bytes colon, nul ∉ part := fun part hpart hnul =>
      spec.nulFree (mem_of_mem_split hpart _ hnul).1
    have hargs : nul ∉ filterArgs := hparts filterArgs (by simp [hsplit])
    have hbase : (tm.specBase deleteTypeFirst fileType).OnlyDefined := by
      cases deleteTypeFirst with
      | false => exact ih
      | true => exact ih.typeDel fileType
    rcases typeAddFromFilterSpecString_of_split hsplit hadd with ⟨-, rfl⟩ | ⟨-, rfl⟩ | ⟨hglobx, -⟩ | ⟨hglob, -⟩
    · exact hbase.typeAddIs fileType hargs
    · have hexts : ∀ ext ∈ split filterArgs comma, nul ∉ ext := fun ext hext hnul =>
        hargs (mem_of_mem_split hext _ hnul).1
      generalize split filterArgs comma = exts at hexts
      generalize tm.specBase deleteTypeFirst fileType = base at hbase
      induction exts generalizing base with
      | nil => exact hbase
      | cons ext rest ih =>
        exact ih (fun e he => hexts e (List.mem_cons_of_mem _ he)) _
          (hbase.typeAddExt fileType (hexts ext List.mem_cons_self))
    · rw [hglobx] at hfilter
      exact absurd hfilter (by decide)
    · rw [hglob] at hfilter
      exact absurd hfilter (by decide)
  | del type _ ih => exact ih.typeDel type

end TypeManager

end Ucg
